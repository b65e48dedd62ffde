import CppAmi.Proof.Sessions

/-!
# The timed invoke has one outcome

The decision that a call has timed out and the storing of the exception are two turns,
and anything can be dispatched between them. Whatever is, the call finds its future
ready when it comes to `get`, with the complete response or with the timeout, and the
dispatcher knows nothing of its ActionID any more.
-/

namespace CppAmi.Proof

open CppAmi EventDispatcher World

variable {ι : Type} [DecidableEq ι]

section

variable {calls : ι → Call} {w : World ι} {i : ι}

omit [DecidableEq ι] in
/-- A call that follows its response finds its future ready in `get`. -/
theorem getting_ready (hs : Sound w.dispatcher) (hf : Follows calls w i)
    (htimed : (calls i).timeout.isSome) {f : Nat} (hpc : w.pc i = .getting f) :
    ∃ outcome, w.dispatcher.shared[f]? = some outcome ∧ OneOutcome calls w i outcome := by
  rw [Follows, hpc] at hf
  obtain ⟨hpipe, hready⟩ := hf
  rcases hpipe with htr | ⟨_, _, htr⟩
  · obtain ⟨outcome, hp⟩ := htr.done_of_shared hs.inv (hready htimed)
    have hthere := htr.shared hs.inv
    rw [hp] at hthere
    exact ⟨outcome, hthere, Or.inl (response_done hp)⟩
  · exact ⟨_, htr.1, Or.inr rfl⟩

omit [DecidableEq ι] in
/-- A settled call that has its ActionID to itself has no pipe and no list. -/
theorem settled_free (hs : Sound w.dispatcher) (howned : Owned calls w) (hf : Follows calls w i)
    (htimed : (calls i).timeout.isSome)
    (hother : ∀ j, (calls j).actionId = (calls i).actionId → j = i)
    (hpc : (w.pc i).Settled) : w.dispatcher.promiseMap.lookup (calls i).actionId = none := by
  have hretired : (w.pc i).Retired → w.dispatcher.promiseMap.lookup (calls i).actionId = none := by
    intro hret
    refine AList.lookup_eq_none.mpr (howned.free ?_)
    intro j hj
    rw [hother j hj]
    exact hret
  cases hp : w.pc i with
  | getting f =>
      rw [← abs_slot_none]
      cases hslot : (abs w.dispatcher).slot (calls i).actionId with
      | none => rfl
      | some fp =>
          -- the pipe would be that of the call, and that is ready
          exfalso
          obtain ⟨outcome, hthere, hone⟩ := getting_ready hs hf htimed hp
          obtain ⟨j, hj, hfut | ⟨err, herr⟩⟩ := howned _ fp.1 fp.2 hslot
          · rw [hother j hj, hp] at hfut
            cases hfut
            have hpend := hs.inv.pending _ _ _ hslot
            rw [abs_shared, hthere] at hpend
            cases hpend
            rcases hone with ⟨_, heq, _⟩ | heq <;> cases heq
          · rw [hother j hj, hp] at herr
            cases herr
  | returned r => exact hretired (by rw [hp]; trivial)
  | threw err => exact hretired (by rw [hp]; trivial)
  | start => rw [hp] at hpc; exact hpc.elim
  | registered f => rw [hp] at hpc; exact hpc.elim
  | waiting f => rw [hp] at hpc; exact hpc.elim
  | timedOut f => rw [hp] at hpc; exact hpc.elim
  | writeThrew err => rw [hp] at hpc; exact hpc.elim

/-- The wait of a call can end, one way or the other. -/
theorem wait_ends {f : Nat} (hpc : w.pc i = .waiting f) :
    (∃ w', step calls w (.waitReady i) = .ok w')
      ∨ ∃ w', step calls w (.waitTimeout i) = .ok w' := by
  by_cases hpend : w.dispatcher.shared[f]? = some .pending
  · refine Or.inr ⟨{ w.goto i (.timedOut f) with
      elapsed := Function.update w.elapsed i true }, ?_⟩
    rw [step, hpc]
    exact if_pos hpend
  · refine Or.inl ⟨w.goto i (.getting f), ?_⟩
    rw [step, hpc]
    exact if_neg hpend

/-- A call that has timed out can store the exception. -/
theorem setExceptionOnPipe_returns (hs : Sound w.dispatcher) {f : Nat}
    (hpc : w.pc i = .timedOut f) :
    ∃ w', step calls w (.setExceptionOnPipe i) = .ok w' ∧ w'.pc i = .getting f := by
  obtain ⟨d, hd, _⟩ := hs.apply (.setExceptionOnPipe (calls i).actionId
    (timeoutError (calls i).actionId))
  unfold EventDispatcher.apply at hd
  refine ⟨{ w.goto i (.getting f) with dispatcher := d }, ?_, Function.update_self _ _ _⟩
  rw [step, hpc]
  simp only [hd]
  rfl

/-- In `get` a call returns or throws what its future has. -/
theorem get_ends {f : Nat} (hpc : w.pc i = .getting f) {outcome : Shared}
    (hthere : w.dispatcher.shared[f]? = some outcome) (hone : OneOutcome calls w i outcome) :
    ∃ w', step calls w (.get i) = .ok w'
      ∧ (∀ reaction, outcome = .value reaction → w'.pc i = .returned reaction)
      ∧ ∀ err, outcome = .exception err → w'.pc i = .threw err := by
  rcases hone with ⟨reaction, rfl, _⟩ | rfl
  · refine ⟨w.goto i (.returned (some reaction)), ?_, ?_, ?_⟩
    · rw [step, hpc]
      simp only [hthere]
    · intro r hr
      cases hr
      exact Function.update_self _ _ _
    · intro err herr
      cases herr
  · refine ⟨w.goto i (.threw (timeoutError (calls i).actionId)), ?_, ?_, ?_⟩
    · rw [step, hpc]
      simp only [hthere]
    · intro r hr
      cases hr
    · intro err herr
      cases herr
      exact Function.update_self _ _ _

end

/--
**A timed invoke never hangs after its timeout, and has exactly one outcome.**

Take a timed call whose ActionID no other call uses, in any history. No turn fails, so
no promise is satisfied twice. The call can always go on: its wait ends, once it has
timed out it stores the exception, and in `get` its future is ready, with the response
it heard or the timeout; that is what it returns or throws. From `get` on nothing is
registered under its ActionID, and every message with it goes to the callback.
-/
theorem timed_invoke_one_outcome (calls : ι → Call) (i : ι) (htimed : (calls i).timeout.isSome)
    (hother : ∀ j, (calls j).actionId = (calls i).actionId → j = i) {labels : List (Label ι)}
    {w : World ι} (hrun : runLabels calls labels = .ok w) :
    (∀ l e, step calls w l ≠ .error (.fault e))
      ∧ (∀ f, w.pc i = .waiting f → (∃ w', step calls w (.waitReady i) = .ok w')
          ∨ ∃ w', step calls w (.waitTimeout i) = .ok w')
      ∧ (∀ f, w.pc i = .timedOut f → ∃ w', step calls w (.setExceptionOnPipe i) = .ok w'
          ∧ w'.pc i = .getting f)
      ∧ (∀ f, w.pc i = .getting f →
          ∃ outcome, w.dispatcher.shared[f]? = some outcome ∧ OneOutcome calls w i outcome
            ∧ ∃ w', step calls w (.get i) = .ok w'
              ∧ (∀ reaction, outcome = .value reaction → w'.pc i = .returned reaction)
              ∧ ∀ err, outcome = .exception err → w'.pc i = .threw err)
      ∧ (∀ r, w.pc i = .returned r → OneOutcome calls w i (.value r))
      ∧ (∀ err, w.pc i = .threw err → OneOutcome calls w i (.exception err))
      ∧ ((w.pc i).Settled →
          (calls i).actionId ∉ w.dispatcher.promiseMap
            ∧ (calls i).actionId ∉ w.dispatcher.eventMap
            ∧ ∀ m, m.actionId = some (calls i).actionId →
              w.dispatcher.dispatchDict m = .ok (w.dispatcher.notify m)) := by
  have hsession : Session calls (calls i).actionId w := by
    refine session_run (session_init calls _) (Run.along_of_forall ?_ _ _) hrun
    refine sequential_of_alone ?_
    intro j k hj hk
    rw [hother j hj, hother k hk]
  have hs := hsession.sound
  have hf := hsession.follows i rfl
  refine ⟨step_no_fault hs, ?_, ?_, ?_, ?_, ?_, ?_⟩
  · intro f hpc
    exact wait_ends hpc
  · intro f hpc
    exact setExceptionOnPipe_returns hs hpc
  · intro f hpc
    obtain ⟨outcome, hthere, hone⟩ := getting_ready hs hf htimed hpc
    exact ⟨outcome, hthere, hone, get_ends hpc hthere hone⟩
  · intro r hpc
    unfold Follows at hf
    rw [hpc] at hf
    exact Or.inl (response_done hf)
  · intro err hpc
    unfold Follows at hf
    rw [hpc] at hf
    exact Or.inr (by rw [hf.1])
  · intro hpc
    have hfree := settled_free hs hsession.owned hf htimed hother hpc
    refine ⟨AList.lookup_eq_none.mp hfree, ?_, fun m hm => dispatchDict_unregistered hm hfree⟩
    exact AList.lookup_eq_none.mp (eventMap_none hs.wf hfree)

/-- The head of a list is dispatched between the timeout and the storing of the exception. -/
theorem timed_invoke_gap :
    ∃ w, runLabels (fun _ : Unit => { action := Sample.ping "7", timeout := some 100 })
        [.getEventPipe (), .write (), .waitTimeout (), .emit (some ()) Sample.head, .dispatch,
          .setExceptionOnPipe ()] = .ok w
      ∧ (∃ outcome, w.dispatcher.shared[0]? = some outcome
        ∧ OneOutcome (fun _ => { action := Sample.ping "7", timeout := some 100 }) w () outcome)
      ∧ ascii "7" ∉ w.dispatcher.promiseMap ∧ ascii "7" ∉ w.dispatcher.eventMap := by
  have hrun : ∃ w, runLabels (fun _ : Unit => { action := Sample.ping "7", timeout := some 100 })
      [.getEventPipe (), .write (), .waitTimeout (), .emit (some ()) Sample.head, .dispatch,
        .setExceptionOnPipe ()] = .ok w ∧ w.pc () = .getting 0 := ⟨_, rfl, rfl⟩
  obtain ⟨w, hrun, hpc⟩ := hrun
  obtain ⟨_, _, _, hget, _, _, hfree⟩ :=
    timed_invoke_one_outcome _ () rfl (fun _ _ => rfl) hrun
  obtain ⟨outcome, hthere, hone, _⟩ := hget 0 hpc
  obtain ⟨hpipe, hlist, _⟩ := hfree (by rw [hpc]; trivial)
  exact ⟨w, hrun, ⟨outcome, hthere, hone⟩, hpipe, hlist⟩

end CppAmi.Proof
