import CppAmi.Proof.Sessions

/-!
# What a failed invoke leaves behind

A call that returns or times out leaves nothing in the maps. A call whose write throws
does leave its pipe, unless the response was already complete: `invoke` registers before
it writes and nothing takes the pipe back. So the maps are clean in every state of a
history exactly when every write that throws finds its pipe closed
(`failed_invoke_clean_iff`).
-/

namespace CppAmi.Proof

open CppAmi EventDispatcher World

variable {ι : Type} [DecidableEq ι]

/-- Nothing is left behind: by nobody when no call is in progress, and at no time by a call whose
write threw. -/
structure Clean (calls : ι → Call) (w : World ι) : Prop where
  idle : w.Idle → w.dispatcher.promiseMap = ∅ ∧ w.dispatcher.eventMap = ∅
    ∧ w.dispatcher.cleanupObject true = .ok w.dispatcher
  threw : ∀ i err, w.pc i = .writeThrew err →
    (calls i).actionId ∉ w.dispatcher.promiseMap ∧ (calls i).actionId ∉ w.dispatcher.eventMap

/-- A write only throws once the pipe of its call is closed again. -/
def ThrowsClosed (calls : ι → Call) (w : World ι) : Label ι → Prop
  | .writeThrows i _ => (calls i).actionId ∉ w.dispatcher.promiseMap
  | _ => True

theorem eq_empty_of_lookup {V : Type} {m : UMap V} (h : ∀ a, m.lookup a = none) : m = ∅ := by
  refine AList.ext ?_
  rw [AList.empty_entries, List.eq_nil_iff_forall_not_mem]
  intro e he
  have hlookup : m.lookup e.1 = some e.2 := AList.mem_lookup_iff.mpr he
  rw [h e.1] at hlookup
  cases hlookup

/-- What is kept: every open pipe belongs to a call that is in progress. -/
structure NothingLeft (calls : ι → Call) (w : World ι) : Prop where
  sound : Sound w.dispatcher
  owned : Owned calls w
  threw : ∀ i err, w.pc i = .writeThrew err → (calls i).actionId ∉ w.dispatcher.promiseMap

omit [DecidableEq ι] in
theorem nothingLeft_init (calls : ι → Call) : NothingLeft calls {} := by
  refine ⟨sound_init, (session_init calls []).owned, ?_⟩
  intro i err hpc
  cases hpc

/-- A pipe that is not open is opened by a registration only. -/
theorem Turn.slot_none {calls : ι → Call} {w w' : World ι} {l : Label ι}
    (h : Turn calls w l w') (hs : Sound w.dispatcher) {a : Bytes}
    (hreg : ∀ j, l = .getEventPipe j → (calls j).actionId ≠ a)
    (hfree : (abs w.dispatcher).slot a = none) : (abs w'.dispatcher).slot a = none := by
  cases hslot : (abs w'.dispatcher).slot a with
  | none => rfl
  | some fp =>
      exfalso
      rcases h.dispatcher with ⟨_, hd⟩ | ⟨op, hop, hd⟩
      · rw [hd, hfree] at hslot
        cases hslot
      · rcases slot_origin hs.inv (hs.step hd).2 hslot with ⟨q, hq⟩ | ⟨rfl, _⟩
        · rw [hfree] at hq
          cases hq
        · obtain ⟨j, hj, ha⟩ := opOf_getEventPipe hop
          exact hreg j hj ha

theorem nothingLeft_turn {calls : ι → Call}
    (hinj : ∀ i j, (calls i).actionId = (calls j).actionId → i = j) {w w' : World ι}
    {l : Label ι} (h : NothingLeft calls w) (hthrows : ThrowsClosed calls w l)
    (ht : Turn calls w l w') : NothingLeft calls w' := by
  refine ⟨ht.sound h.sound, owned_turn h.sound h.owned ht, ?_⟩
  intro i err hpc'
  by_cases hl : l.caller = some i
  · -- the write of `i` throws in this very turn
    obtain ⟨what, rfl⟩ := ht.writeThrew_origin hl hpc'
    cases ht with
    | writeThrows hpc => exact hthrows
  · -- nobody but `i` registers its ActionID, and `i` has ended
    rw [(ht.other hl).1] at hpc'
    have hfree := h.threw i err hpc'
    rw [← abs_slot_none_iff] at hfree ⊢
    refine ht.slot_none h.sound ?_ hfree
    intro j hreg hj
    exact hl (by rw [hreg, hinj j i hj]; rfl)

omit [DecidableEq ι] in
theorem NothingLeft.clean {calls : ι → Call} {w : World ι} (h : NothingLeft calls w) :
    Clean calls w := by
  refine ⟨fun hidle => ?_, fun i err hpc => ⟨h.threw i err hpc, ?_⟩⟩
  · have hpipes : ∀ a, w.dispatcher.promiseMap.lookup a = none := by
      intro a
      rw [← abs_slot_none]
      cases hslot : (abs w.dispatcher).slot a with
      | none => rfl
      | some fp =>
          exfalso
          obtain ⟨i, hi, hf | ⟨err, herr⟩⟩ := h.owned a fp.1 fp.2 hslot
          · rw [hidle i] at hf
            cases hf
          · have hfree := h.threw i err herr
            rw [← abs_slot_none_iff, hi, hslot] at hfree
            cases hfree
    have hlists : ∀ a, w.dispatcher.eventMap.lookup a = none :=
      fun a => eventMap_none h.sound.wf (hpipes a)
    have hempty := eq_empty_of_lookup hpipes
    have hempty' := eq_empty_of_lookup hlists
    refine ⟨hempty, hempty', ?_⟩
    simp [cleanupObject, hempty, hempty', bind, Except.bind, pure, Except.pure]
  · rw [← AList.lookup_eq_none]
    exact eventMap_none h.sound.wf (AList.lookup_eq_none.mpr (h.threw i err hpc))

/--
**A failed invoke leaves nothing behind exactly when its pipe is closed when the write
throws.**

For calls with pairwise distinct ActionIDs, in any history: the maps are clean in every
state it goes through if and only if no write throws while the pipe of its call is
still registered.
-/
theorem failed_invoke_clean_iff (calls : ι → Call)
    (hinj : ∀ i j, (calls i).actionId = (calls j).actionId → i = j) (labels : List (Label ι)) :
    Run.Always (step calls) (Clean calls) {} labels
      ↔ Run.Along (step calls) (ThrowsClosed calls) {} labels := by
  refine ⟨?_, ?_⟩
  · intro h
    refine Run.along_of_always ?_ h
    intro w l w' _ hstep hclean
    cases l with
    | writeThrows i what =>
        have ht := step_turn hstep
        cases ht with
        | writeThrows hpc => exact (hclean.threw i _ (Function.update_self _ _ _)).1
    | _ => trivial
  · intro h
    exact Run.always_of_along (fun w l w' hinv hthrows hstep =>
      nothingLeft_turn hinj hinv hthrows (step_turn hstep)) (fun w hinv => hinv.clean)
      (nothingLeft_init calls) h

/-! ## A write that throws -/

/-- A call that times out leaves nothing. -/
theorem failed_invoke_clean_timeout :
    Run.Always (step fun _ : Unit => { action := Sample.ping "7", timeout := some 100 })
      (Clean fun _ => { action := Sample.ping "7", timeout := some 100 }) {}
      [.getEventPipe (), .write (), .waitTimeout (), .setExceptionOnPipe (), .get ()] :=
  (failed_invoke_clean_iff _ (fun _ _ _ => rfl) _).mpr
    fun _ _ => ⟨trivial, fun _ _ => ⟨trivial, fun _ _ => ⟨trivial, fun _ _ => ⟨trivial,
      fun _ _ => ⟨trivial, trivial⟩⟩⟩⟩⟩

/-- A call whose write throws leaves its pipe: the assertion at shutdown fails, and a second call
with the action gets a broken pipe. -/
theorem write_throw_leaks :
    ∃ w : World Unit,
      runLabels (fun _ => { action := Sample.ping "7" })
          [.getEventPipe (), .writeThrows () (ascii "Connection reset by peer")] = .ok w
        ∧ w.Idle ∧ ascii "7" ∈ w.dispatcher.promiseMap
        ∧ w.dispatcher.cleanupObject true = .error .assertFailed
        ∧ (w.dispatcher.getEventPipe (ascii "7")).1.shared[1]?
          = some (.exception .brokenPromise)
        ∧ ¬ Run.Always (step fun _ => { action := Sample.ping "7" })
          (Clean fun _ => { action := Sample.ping "7" }) {}
          [.getEventPipe (), .writeThrows () (ascii "Connection reset by peer")] := by
  refine ⟨_, rfl, fun _ => rfl, by decide, rfl, rfl, ?_⟩
  intro h
  have hclean := (h.2 _ rfl).2 _ rfl
  exact (hclean.threw () _ rfl).1 (by decide)

end CppAmi.Proof
