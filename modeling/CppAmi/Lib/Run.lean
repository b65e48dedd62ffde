import Mathlib.Data.List.Basic

/-!
# Runs of a step that can fail

A system is a step function `σ → ο → Except ε σ`: an operation either takes the
state to the next one or fails. `run` executes a list of operations.

Two predicates talk about a whole run rather than its end. `Always Q` says `Q`
holds in every state the run goes through, and `Along P` says every operation it
executes meets `P` in the state it was executed in. `always_of_along` is the
invariant rule that leads from the second to the first; `along_of_always` is the
way back, for a `P` that its own step can refute.

`run_simulate` is the rule for following one component of the state: where each
operation moves the component by a local step or not at all, the component only
depends on the operations that move it.
-/

namespace Run

variable {ε σ ο : Type*} (step : σ → ο → Except ε σ)

/-- Execute the operations in order, up to the first that fails. -/
def run : σ → List ο → Except ε σ
  | s, [] => .ok s
  | s, o :: os =>
    match step s o with
    | .ok s' => run s' os
    | .error e => .error e

/-- `Q` holds in every state the run goes through, the first and the last included. -/
def Always (Q : σ → Prop) : σ → List ο → Prop
  | s, [] => Q s
  | s, o :: os => Q s ∧ ∀ s', step s o = .ok s' → Always Q s' os

/-- Every operation the run executes meets `P` in the state it finds. -/
def Along (P : σ → ο → Prop) : σ → List ο → Prop
  | _, [] => True
  | s, o :: os => ∀ s', step s o = .ok s' → P s o ∧ Along P s' os

variable {step}

/-! ## Steps with a guard, and steps in two parts -/

theorem ite_eq_ok {c : Prop} [Decidable c] {x : Except ε σ} {e : ε} {s : σ}
    (h : (if c then x else .error e) = .ok s) : c ∧ x = .ok s := by
  split at h
  · rename_i hc
    exact ⟨hc, h⟩
  · cases h

/-- A step that fails in another way than its guard has passed the guard. -/
theorem ite_eq_error {c : Prop} [Decidable c] {x : Except ε σ} {e e' : ε} (hne : e ≠ e')
    (h : (if c then x else .error e) = .error e') : c ∧ x = .error e' := by
  split at h
  · rename_i hc
    exact ⟨hc, h⟩
  · injection h with he
    exact absurd he hne

theorem bind_eq_ok {τ : Type*} {x : Except ε σ} {f : σ → Except ε τ} {t : τ}
    (h : x.bind f = .ok t) : ∃ s, x = .ok s ∧ f s = .ok t := by
  cases x with
  | ok s => exact ⟨s, rfl, h⟩
  | error e => cases h

/-- Where the second part does not fail, the first has. -/
theorem bind_eq_error {τ : Type*} {x : Except ε σ} {f : σ → τ} {e : ε}
    (h : (x.bind fun s => .ok (f s)) = .error e) : x = .error e := by
  cases x with
  | ok s => cases h
  | error e' =>
      cases h
      rfl

/-! ## Runs -/

@[simp] theorem run_nil (s : σ) : run step s [] = .ok s := rfl

theorem run_cons {s s' : σ} {o : ο} {os : List ο} (h : step s o = .ok s') :
    run step s (o :: os) = run step s' os := by
  rw [run, h]

theorem run_cons_eq_ok {s t : σ} {o : ο} {os : List ο} :
    run step s (o :: os) = .ok t ↔ ∃ s', step s o = .ok s' ∧ run step s' os = .ok t := by
  rw [run]
  cases step s o with
  | ok s' => simp
  | error e => simp

theorem run_append (s : σ) (os os' : List ο) :
    run step s (os ++ os') = (run step s os).bind fun m => run step m os' := by
  induction os generalizing s with
  | nil => rfl
  | cons o os ih =>
      rw [List.cons_append, run, run]
      cases step s o with
      | ok s' => exact ih s'
      | error e => rfl

theorem run_append_eq_ok {s t : σ} {os os' : List ο} :
    run step s (os ++ os') = .ok t ↔
      ∃ m, run step s os = .ok m ∧ run step m os' = .ok t := by
  induction os generalizing s with
  | nil => simp
  | cons o os ih =>
      simp only [List.cons_append, run_cons_eq_ok, ih]
      constructor
      · rintro ⟨s', h1, m, h2, h3⟩
        exact ⟨m, ⟨s', h1, h2⟩, h3⟩
      · rintro ⟨m, ⟨s', h1, h2⟩, h3⟩
        exact ⟨s', h1, m, h2, h3⟩

theorem run_snoc_eq_ok {s t : σ} {o : ο} {os : List ο} :
    run step s (os ++ [o]) = .ok t ↔ ∃ m, run step s os = .ok m ∧ step m o = .ok t := by
  rw [run_append_eq_ok]
  simp [run_cons_eq_ok]

theorem Always.head {Q : σ → Prop} {s : σ} {os : List ο} (h : Always step Q s os) : Q s := by
  cases os with
  | nil => exact h
  | cons o os => exact h.1

theorem along_cons {P : σ → ο → Prop} {s s' : σ} {o : ο} {os : List ο} (h : step s o = .ok s') :
    Along step P s (o :: os) ↔ P s o ∧ Along step P s' os := by
  rw [Along]
  refine ⟨fun hall => hall s' h, ?_⟩
  intro hs t ht
  rw [h] at ht
  cases ht
  exact hs

/-- What a condition implies of the operations that succeed. -/
theorem Along.mono {P P' : σ → ο → Prop} (himp : ∀ s o s', step s o = .ok s' → P s o → P' s o)
    {s : σ} {os : List ο} (h : Along step P s os) : Along step P' s os := by
  induction os generalizing s with
  | nil => trivial
  | cons o os ih =>
      intro s' hs
      exact ⟨himp s o s' hs (h s' hs).1, ih (h s' hs).2⟩

theorem Along.and {P P' : σ → ο → Prop} {s : σ} {os : List ο} (h : Along step P s os)
    (h' : Along step P' s os) : Along step (fun s o => P s o ∧ P' s o) s os := by
  induction os generalizing s with
  | nil => trivial
  | cons o os ih =>
      intro s' hs
      exact ⟨⟨(h s' hs).1, (h' s' hs).1⟩, ih (h s' hs).2 (h' s' hs).2⟩

theorem Always.and {Q Q' : σ → Prop} {s : σ} {os : List ο} (h : Always step Q s os)
    (h' : Always step Q' s os) : Always step (fun s => Q s ∧ Q' s) s os := by
  induction os generalizing s with
  | nil => exact ⟨h, h'⟩
  | cons o os ih => exact ⟨⟨h.1, h'.1⟩, fun s' hs => ih (h.2 s' hs) (h'.2 s' hs)⟩

theorem along_of_forall {P : σ → ο → Prop} (hP : ∀ s o, P s o) (s : σ) (os : List ο) :
    Along step P s os := by
  induction os generalizing s with
  | nil => trivial
  | cons o os ih => exact fun s' _ => ⟨hP s o, ih s'⟩

/-- **The invariant rule, for the end of a run.** -/
theorem invariant {Inv : σ → Prop} {P : σ → ο → Prop}
    (hstep : ∀ s o s', Inv s → P s o → step s o = .ok s' → Inv s')
    {s t : σ} {os : List ο} (h0 : Inv s) (hP : Along step P s os)
    (hrun : run step s os = .ok t) : Inv t := by
  induction os generalizing s with
  | nil =>
      cases hrun
      exact h0
  | cons o os ih =>
      obtain ⟨s', hs, hrest⟩ := run_cons_eq_ok.mp hrun
      obtain ⟨hp, hP'⟩ := hP s' hs
      exact ih (hstep s o s' h0 hp hs) hP' hrest

/-- The invariant rule where every step keeps the invariant. -/
theorem invariant_of_step {Inv : σ → Prop}
    (hstep : ∀ s o s', Inv s → step s o = .ok s' → Inv s') {s t : σ} {os : List ο} (h0 : Inv s)
    (hrun : run step s os = .ok t) : Inv t :=
  invariant (P := fun _ _ => True) (fun s o s' h _ hs => hstep s o s' h hs) h0
    (along_of_forall (fun _ _ => trivial) s os) hrun

/-- **The invariant rule, for every state of a run.** -/
theorem always_of_along {Inv Q : σ → Prop} {P : σ → ο → Prop}
    (hstep : ∀ s o s', Inv s → P s o → step s o = .ok s' → Inv s') (hQ : ∀ s, Inv s → Q s)
    {s : σ} {os : List ο} (h0 : Inv s) (hP : Along step P s os) : Always step Q s os := by
  induction os generalizing s with
  | nil => exact hQ s h0
  | cons o os ih =>
      refine ⟨hQ s h0, ?_⟩
      intro s' hs
      obtain ⟨hp, hP'⟩ := hP s' hs
      exact ih (hstep s o s' h0 hp hs) hP'

/-- What no step can restore, and holds in the end, held all along. -/
theorem always_of_final {Inv Q : σ → Prop}
    (hstep : ∀ s o s', Inv s → step s o = .ok s' → Inv s')
    (hback : ∀ s o s', Inv s → step s o = .ok s' → Q s' → Q s) {s t : σ} {os : List ο}
    (h0 : Inv s) (hrun : run step s os = .ok t) (hQ : Q t) :
    Always step (fun s => Inv s ∧ Q s) s os := by
  induction os generalizing s with
  | nil =>
      cases hrun
      exact ⟨h0, hQ⟩
  | cons o os ih =>
      obtain ⟨s', hs, hrest⟩ := run_cons_eq_ok.mp hrun
      have hall := ih (hstep s o s' h0 hs) hrest
      refine ⟨⟨h0, hback s o s' h0 hs hall.head.2⟩, ?_⟩
      intro s'' hs''
      rw [hs] at hs''
      cases hs''
      exact hall

/-- Under an invariant one condition on the operations implies another. -/
theorem Along.imp {Inv : σ → Prop} {P P' : σ → ο → Prop}
    (hstep : ∀ s o s', Inv s → P s o → step s o = .ok s' → Inv s')
    (himp : ∀ s o, Inv s → P s o → P' s o) {s : σ} {os : List ο} (h0 : Inv s)
    (hP : Along step P s os) : Along step P' s os := by
  induction os generalizing s with
  | nil => trivial
  | cons o os ih =>
      intro s' hs
      obtain ⟨hp, hP'⟩ := hP s' hs
      exact ⟨himp s o h0 hp, ih (hstep s o s' h0 hp hs) hP'⟩

/-- Where a step that breaks `P` shows in the state after it, `P` is forced along the run. -/
theorem along_of_always {Q : σ → Prop} {P : σ → ο → Prop}
    (hstep : ∀ s o s', Q s → step s o = .ok s' → Q s' → P s o)
    {s : σ} {os : List ο} (h : Always step Q s os) : Along step P s os := by
  induction os generalizing s with
  | nil => trivial
  | cons o os ih =>
      intro s' hs
      exact ⟨hstep s o s' h.1 hs (h.2 s' hs).head, ih (h.2 s' hs)⟩

/-- A step that never fails under an invariant makes runs that never fail. -/
theorem run_total {Inv : σ → Prop}
    (hstep : ∀ s o, Inv s → ∃ s', step s o = .ok s' ∧ Inv s')
    {s : σ} (os : List ο) (h0 : Inv s) : ∃ t, run step s os = .ok t ∧ Inv t := by
  induction os generalizing s with
  | nil => exact ⟨s, rfl, h0⟩
  | cons o os ih =>
      obtain ⟨s', hs, hi⟩ := hstep s o h0
      rw [run_cons hs]
      exact ih hi

/-- A step that fails in some ways only makes runs that do. -/
theorem run_error {Inv : σ → Prop} {E : ε → Prop}
    (hstep : ∀ s o s', Inv s → step s o = .ok s' → Inv s')
    (hfail : ∀ s o e, Inv s → step s o = .error e → E e)
    {s : σ} {os : List ο} {e : ε} (h0 : Inv s) (hrun : run step s os = .error e) : E e := by
  induction os generalizing s with
  | nil => cases hrun
  | cons o os ih =>
      rw [run] at hrun
      cases hs : step s o with
      | ok s' =>
          rw [hs] at hrun
          exact ih (hstep s o s' h0 hs) hrun
      | error e' =>
          rw [hs] at hrun
          cases hrun
          exact hfail s o e h0 hs

/--
**The simulation rule.**

`R` relates states to a second system that executes some of the operations, those
`pick` translates, and stands still at the others. What it has become at the end of
a run then only depends on where it started and on the operations it executed.
-/
theorem run_simulate {τ κ : Type*} {R : σ → τ → Prop} {pick : ο → Option κ}
    {localStep : τ → κ → τ}
    (hstep : ∀ s t o s', R s t → step s o = .ok s' → R s' ((pick o).elim t (localStep t)))
    {s s' : σ} {t : τ} {os : List ο} (h0 : R s t) (hrun : run step s os = .ok s') :
    R s' ((os.filterMap pick).foldl localStep t) := by
  induction os generalizing s t with
  | nil =>
      cases hrun
      exact h0
  | cons o os ih =>
      obtain ⟨m, hs, hrest⟩ := run_cons_eq_ok.mp hrun
      have hm := hstep s t o m h0 hs
      rw [List.filterMap_cons]
      cases hp : pick o with
      | none =>
          rw [hp] at hm
          exact ih hm hrest
      | some k =>
          rw [hp] at hm
          exact ih hm hrest

end Run
