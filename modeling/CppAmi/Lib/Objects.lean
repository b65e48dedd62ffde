import CppAmi.Lib.Run
import Mathlib.Data.List.Induction
import Mathlib.Logic.Function.Basic

/-!
# Objects that are copied

A program holds objects under names. An object is constructed, changed by calls, and
copied: into a new object, or over one that is there. An `Interface` is what the objects
offer, and `step` is what the program does with them.

The `lineage` of an object is what it was constructed from and the calls made since,
on the original before a copy and on the copy after it. Where copies are faithful, an
object is what its lineage gives when it is done again (`run_replay`), so what holds of
objects that are constructed and called holds of every object (`run_rule`).
-/

namespace Objects

structure Interface (ε κ μ α : Type*) where
  construct : κ → Except ε α
  call : α → μ → α
  /-- The copy constructor. -/
  copy : α → Except ε α
  /-- Copy assignment of the second onto the first. -/
  assign : α → α → Except ε α

inductive Op (ι κ μ : Type*) where
  | construct (i : ι) (k : κ)
  | call (i : ι) (m : μ)
  | copyConstruct (i source : ι)
  | copyAssign (i source : ι)

/-- Why an operation does not happen. -/
inductive Failure (ε : Type*) where
  /-- There is no object of that name. -/
  | noObject
  | raised (e : ε)

/-- What an object was constructed from, and the calls made since. -/
structure Lineage (κ μ : Type*) where
  base : κ
  calls : List μ

variable {ι ε κ μ α : Type*}

/-- The name an operation writes to. -/
def Op.target : Op ι κ μ → ι
  | .construct i _ | .call i _ | .copyConstruct i _ | .copyAssign i _ => i

/-- The copies an interface makes are copies. -/
structure Interface.Faithful (c : Interface ε κ μ α) : Prop where
  copy : ∀ a b, c.copy a = .ok b → b = a
  assign : ∀ a b r, c.assign a b = .ok r → r = b

/-- What a lineage gives. -/
def Interface.replay (c : Interface ε κ μ α) (l : Lineage κ μ) : Except ε α :=
  (c.construct l.base).map fun a => l.calls.foldl c.call a

/-- What an operation puts under its name, where the objects it needs are there. -/
def Interface.result (c : Interface ε κ μ α) (s : ι → Option α) :
    Op ι κ μ → Option (Except ε α)
  | .construct _ k => some (c.construct k)
  | .call i m => (s i).map fun a => .ok (c.call a m)
  | .copyConstruct _ source => (s source).map c.copy
  | .copyAssign i source => (s i).bind fun a => (s source).map (c.assign a)

variable [DecidableEq ι]

def step (c : Interface ε κ μ α) (s : ι → Option α) (o : Op ι κ μ) :
    Except (Failure ε) (ι → Option α) :=
  match c.result s o with
  | some (.ok a) => .ok (Function.update s o.target (some a))
  | some (.error e) => .error (.raised e)
  | none => .error .noObject

/-- A program, from where there are no objects. -/
def run (c : Interface ε κ μ α) (ops : List (Op ι κ μ)) :
    Except (Failure ε) (ι → Option α) :=
  Run.run (step c) (fun _ => none) ops

/-- A copy has the lineage of its source. -/
def track (h : ι → Option (Lineage κ μ)) : Op ι κ μ → ι → Option (Lineage κ μ)
  | .construct i k => Function.update h i (some ⟨k, []⟩)
  | .call i m => Function.update h i ((h i).map fun l => ⟨l.base, l.calls ++ [m]⟩)
  | .copyConstruct i source | .copyAssign i source => Function.update h i (h source)

def lineage (ops : List (Op ι κ μ)) : ι → Option (Lineage κ μ) :=
  ops.foldl track fun _ => none

variable {c : Interface ε κ μ α} {s s' : ι → Option α} {o : Op ι κ μ}

/-! ## One operation -/

theorem step_eq_ok (h : step c s o = .ok s') :
    ∃ a, c.result s o = some (.ok a) ∧ s' = Function.update s o.target (some a) := by
  unfold step at h
  split at h
  · rename_i a ha
    cases h
    exact ⟨a, ha, rfl⟩
  · cases h
  · cases h

theorem step_of_result {a : α} (h : c.result s o = some (.ok a)) :
    step c s o = .ok (Function.update s o.target (some a)) := by
  unfold step
  rw [h]

/-- **An operation changes no other object.** -/
theorem step_frame (h : step c s o = .ok s') {i : ι} (hi : i ≠ o.target) : s' i = s i := by
  obtain ⟨a, _, rfl⟩ := step_eq_ok h
  exact Function.update_of_ne hi _ _

theorem track_of_ne {h : ι → Option (Lineage κ μ)} {i : ι} (hi : i ≠ o.target) :
    track h o i = h i := by
  cases o <;> exact Function.update_of_ne hi _ _

omit [DecidableEq ι] in
theorem replay_construct {k : κ} {a : α} (h : c.construct k = .ok a) :
    c.replay ⟨k, []⟩ = .ok a := by
  unfold Interface.replay
  rw [h]
  rfl

omit [DecidableEq ι] in
theorem replay_call {l : Lineage κ μ} {a : α} (h : c.replay l = .ok a) (m : μ) :
    c.replay ⟨l.base, l.calls ++ [m]⟩ = .ok (c.call a m) := by
  unfold Interface.replay at h ⊢
  cases hk : c.construct l.base with
  | error e =>
      rw [hk] at h
      cases h
  | ok b =>
      rw [hk] at h
      cases h
      simp [Except.map]

/-- Every object is what its lineage gives. -/
def Replays (c : Interface ε κ μ α) (s : ι → Option α) (h : ι → Option (Lineage κ μ)) : Prop :=
  ∀ i a, s i = some a → ∃ l, h i = some l ∧ c.replay l = .ok a

theorem replays_step {h : ι → Option (Lineage κ μ)} (hc : c.Faithful) (hr : Replays c s h)
    (hs : step c s o = .ok s') : Replays c s' (track h o) := by
  obtain ⟨b, hb, rfl⟩ := step_eq_ok hs
  -- what stands under the name that was written to
  have hself : ∃ l, track h o o.target = some l ∧ c.replay l = .ok b := by
    cases o with
    | construct i k =>
        exact ⟨⟨k, []⟩, Function.update_self .., replay_construct (Option.some.inj hb)⟩
    | call i m =>
        obtain ⟨a, ha, hcall⟩ := Option.map_eq_some_iff.mp hb
        cases hcall
        obtain ⟨l, hl, hl'⟩ := hr i a ha
        refine ⟨⟨l.base, l.calls ++ [m]⟩, ?_, replay_call hl' m⟩
        show Function.update h i _ i = _
        rw [Function.update_self, hl]
        rfl
    | copyConstruct i source =>
        obtain ⟨a, ha, hcopy⟩ := Option.map_eq_some_iff.mp hb
        obtain ⟨l, hl, hl'⟩ := hr source a ha
        refine ⟨l, ?_, by rwa [hc.copy a b hcopy]⟩
        show Function.update h i _ i = _
        rw [Function.update_self, hl]
    | copyAssign i source =>
        obtain ⟨a, _, hb⟩ := Option.bind_eq_some_iff.mp hb
        obtain ⟨a', ha', hassign⟩ := Option.map_eq_some_iff.mp hb
        obtain ⟨l, hl, hl'⟩ := hr source a' ha'
        refine ⟨l, ?_, by rwa [hc.assign a a' b hassign]⟩
        show Function.update h i _ i = _
        rw [Function.update_self, hl]
  intro i a hi
  by_cases heq : i = o.target
  · subst heq
    rw [Function.update_self] at hi
    cases hi
    exact hself
  · rw [Function.update_of_ne heq] at hi
    obtain ⟨l, hl, hl'⟩ := hr i a hi
    exact ⟨l, (track_of_ne heq).trans hl, hl'⟩

/-! ## Runs -/

/-- **Every object of a run is what its lineage gives.** -/
theorem run_replay (hc : c.Faithful) {ops : List (Op ι κ μ)}
    (hrun : run c ops = .ok s) : Replays c s (lineage ops) := by
  have hstart : Replays c (fun _ : ι => none) fun _ => none := fun i a h => nomatch h
  have hstep : ∀ s h (o : Op ι κ μ) s', Replays c s h → step c s o = .ok s' →
      Replays c s' ((some o).elim h (track h)) :=
    fun s h o s' hr hs => replays_step hc hr hs
  have hend := Run.run_simulate hstep hstart hrun
  rwa [List.filterMap_some] at hend

theorem track_base {h : ι → Option (Lineage κ μ)} {i : ι} {l : Lineage κ μ}
    (ht : track h o i = some l) :
    (∃ j, o = .construct j l.base) ∨ ∃ j l', h j = some l' ∧ l'.base = l.base := by
  by_cases heq : i = o.target
  · subst heq
    cases o with
    | construct i k =>
        rw [track, Op.target, Function.update_self] at ht
        cases ht
        exact Or.inl ⟨i, rfl⟩
    | call i m =>
        rw [track, Op.target, Function.update_self] at ht
        obtain ⟨l', hl', rfl⟩ := Option.map_eq_some_iff.mp ht
        exact Or.inr ⟨i, l', hl', rfl⟩
    | copyConstruct i source =>
        rw [track, Op.target, Function.update_self] at ht
        exact Or.inr ⟨source, l, ht, rfl⟩
    | copyAssign i source =>
        rw [track, Op.target, Function.update_self] at ht
        exact Or.inr ⟨source, l, ht, rfl⟩
  · rw [track_of_ne heq] at ht
    exact Or.inr ⟨i, l, ht, rfl⟩

/-- An object was constructed from something in the run. -/
theorem lineage_base {ops : List (Op ι κ μ)} {i : ι} {l : Lineage κ μ}
    (h : lineage ops i = some l) : ∃ j, Op.construct j l.base ∈ ops := by
  induction ops using List.reverseRecOn generalizing i l with
  | nil => cases h
  | append_singleton ops o ih =>
      unfold lineage at h
      rw [List.foldl_append] at h
      rcases track_base h with ⟨j, rfl⟩ | ⟨j, l', hl', hbase⟩
      · exact ⟨j, by simp⟩
      · obtain ⟨j', hj'⟩ := ih hl'
        exact ⟨j', List.mem_append_left _ (hbase ▸ hj')⟩

omit [DecidableEq ι] in
/-- The induction over the calls of a lineage. -/
theorem replay_rule {P : List μ → α → Prop} {l : Lineage κ μ} {a : α}
    (hbase : ∀ b, c.construct l.base = .ok b → P [] b)
    (hcall : ∀ ms b m, P ms b → P (ms ++ [m]) (c.call b m)) (h : c.replay l = .ok a) :
    P l.calls a := by
  unfold Interface.replay at h
  cases hk : c.construct l.base with
  | error e =>
      rw [hk] at h
      cases h
  | ok b =>
      have hall : ∀ ms, P ms (ms.foldl c.call b) := by
        intro ms
        induction ms using List.reverseRecOn with
        | nil => exact hbase b hk
        | append_singleton ms m ih =>
            rw [List.foldl_append]
            exact hcall ms _ m ih
      rw [hk] at h
      cases h
      exact hall l.calls

/--
**The rule for objects that are copied.** A property of the lineage and the object that the
constructors establish and the calls keep is one of every object of a run.
-/
theorem run_rule {P : κ → List μ → α → Prop} (hc : c.Faithful) {ops : List (Op ι κ μ)}
    (hbase : ∀ i k b, Op.construct i k ∈ ops → c.construct k = .ok b → P k [] b)
    (hcall : ∀ k ms b m, P k ms b → P k (ms ++ [m]) (c.call b m))
    (hrun : run c ops = .ok s) {i : ι} {a : α} (hi : s i = some a) :
    ∃ l, lineage ops i = some l ∧ P l.base l.calls a := by
  obtain ⟨l, hl, hreplay⟩ := run_replay hc hrun i a hi
  obtain ⟨j, hj⟩ := lineage_base hl
  exact ⟨l, hl, replay_rule (fun b hb => hbase j l.base b hj hb)
    (fun ms b m h => hcall l.base ms b m h) hreplay⟩

/-- Where constructors and copies return, an operation fails at a name without an object only. -/
theorem step_fails_noObject {f : Failure ε}
    (hconstruct : ∀ i k, o = .construct i k → ∃ a, c.construct k = .ok a)
    (hcopy : ∀ a, ∃ b, c.copy a = .ok b) (hassign : ∀ a b, ∃ r, c.assign a b = .ok r)
    (hs : step c s o = .error f) : f = .noObject := by
  unfold step at hs
  split at hs
  · cases hs
  · rename_i e he
    -- the result of an operation is never an error
    cases o with
    | construct i k =>
        obtain ⟨a, ha⟩ := hconstruct i k rfl
        rw [Interface.result, ha] at he
        cases he
    | call i m =>
        obtain ⟨a, _, ha⟩ := Option.map_eq_some_iff.mp he
        cases ha
    | copyConstruct i source =>
        obtain ⟨a, _, ha⟩ := Option.map_eq_some_iff.mp he
        obtain ⟨b, hb⟩ := hcopy a
        rw [hb] at ha
        cases ha
    | copyAssign i source =>
        obtain ⟨a, _, ha⟩ := Option.bind_eq_some_iff.mp he
        obtain ⟨b, _, hb⟩ := Option.map_eq_some_iff.mp ha
        obtain ⟨r, hr⟩ := hassign a b
        rw [hr] at hb
        cases hb
  · cases hs
    rfl

theorem run_fails_noObject {ops : List (Op ι κ μ)} {f : Failure ε}
    (hconstruct : ∀ i k, Op.construct i k ∈ ops → ∃ a, c.construct k = .ok a)
    (hcopy : ∀ a, ∃ b, c.copy a = .ok b) (hassign : ∀ a b, ∃ r, c.assign a b = .ok r)
    (hrun : run c ops = .error f) : f = .noObject := by
  unfold run at hrun
  generalize (fun _ : ι => (none : Option α)) = s at hrun
  induction ops generalizing s with
  | nil => cases hrun
  | cons o ops ih =>
      rw [Run.run] at hrun
      cases hs : step c s o with
      | ok t =>
          rw [hs] at hrun
          exact ih (fun i k hik => hconstruct i k (List.mem_cons_of_mem o hik)) t hrun
      | error f' =>
          rw [hs] at hrun
          cases hrun
          refine step_fails_noObject ?_ hcopy hassign hs
          intro i k ho
          exact hconstruct i k (ho ▸ List.mem_cons_self)

end Objects
