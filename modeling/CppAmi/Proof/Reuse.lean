import CppAmi.Proof.Sessions

/-!
# An action that is invoked again

Calls with one `Action` have one ActionID, so the dispatcher cannot tell a late answer
to a call that has timed out from the answer to its retry, and hands it over
(`late_answer_delivered`). What holds is that a call returns messages with its ActionID
that were dispatched after it registered, and throws a timeout only when its own wait
was over; and that what it returns was sent in answer to it if nothing comes late
(`reuse_own_answer`).
-/

namespace CppAmi.Proof

open CppAmi EventDispatcher World

variable {ι : Type} [DecidableEq ι]

section Turns

variable {calls : ι → Call} {w w' : World ι} {l : Label ι} {i : ι}

/-- What a call has heard or may hear was there before, or is sent in this turn. -/
theorem Turn.within_reach (h : Turn calls w l w') (hmark : w'.mark i = w.mark i)
    (hle : w.mark i ≤ w.delivered.length) {sm : Option ι × Event}
    (hsm : sm ∈ w'.heard calls i ++ w'.inFlight) :
    sm ∈ w.heard calls i ++ w.inFlight ∨ ∃ source m, l = .emit source m ∧ sm = (source, m) := by
  rcases List.mem_append.mp hsm with hheard | hflight
  · unfold World.heard at hheard
    rw [hmark, h.heardSince _ hle] at hheard
    rcases List.mem_append.mp hheard with hold | hnew
    · exact Or.inl (List.mem_append_left _ hold)
    · exact Or.inl (List.mem_append_right _ (heardNow_dispatch (Option.mem_toList.mp hnew)))
  · rcases h.flow with ⟨_, hsame, _⟩ | ⟨source, m, hl, hmore, _⟩ | ⟨first, _, hfirst, _⟩
    · rw [hsame] at hflight
      exact Or.inl (List.mem_append_right _ hflight)
    · rw [hmore] at hflight
      rcases List.mem_append.mp hflight with hold | hnew
      · exact Or.inl (List.mem_append_right _ hold)
      · exact Or.inr ⟨source, m, hl, List.mem_singleton.mp hnew⟩
    · rw [hfirst]
      exact Or.inl (List.mem_append_right _ (List.mem_cons_of_mem first hflight))

/-- What a call has heard is not forgotten. -/
theorem Turn.heard_prefix (h : Turn calls w l w') (hmark : w'.mark i = w.mark i)
    (hle : w.mark i ≤ w.delivered.length) : w.heard calls i <+: w'.heard calls i := by
  unfold World.heard
  rw [hmark, h.heardSince _ hle]
  exact List.prefix_append _ _

end Turns

/-! ## Nothing comes late -/

/-- All that a call in progress has heard or may hear was sent in answer to it. -/
structure OwnSoFar (calls : ι → Call) (w : World ι) (i : ι) : Prop where
  inProgress : (w.pc i).future ≠ none → ∀ sm ∈ w.heard calls i ++ w.inFlight,
    sm.2.actionId = some (calls i).actionId → sm.1 = some i
  returned : OnlyOwn calls w i

omit [DecidableEq ι] in
theorem ownSoFar_init (calls : ι → Call) (i : ι) : OwnSoFar calls {} i :=
  ⟨fun h => absurd rfl h, fun reaction h => by cases h⟩

section Step

variable {calls : ι → Call} {w w' : World ι} {l : Label ι} {i : ι}

omit [DecidableEq ι] in
/-- What a call returns was sent in answer to it, if all it has heard was. -/
theorem onlyOwn_of_heard (hf : Follows calls w i)
    (h : ∀ sm ∈ w.heard calls i, sm.1 = some i) : OnlyOwn calls w i := by
  intro reaction hpc
  unfold Follows at hf
  rw [hpc] at hf
  obtain ⟨r, hr, hcomp⟩ := response_done hf
  cases hr
  refine ⟨(w.heard calls i).take reaction.messages.length, List.take_prefix _ _, ?_,
    fun sm hsm => h sm (List.mem_of_mem_take hsm)⟩
  rw [List.map_take]
  exact (List.prefix_iff_eq_take.mp hcomp.first).symm

theorem ownSoFar_turn (hle : w.mark i ≤ w.delivered.length) (hf' : Follows calls w' i)
    (h : OwnSoFar calls w i) (hlate : NoLate calls i w l) (ht : Turn calls w l w') :
    OwnSoFar calls w' i := by
  by_cases hl : l = .getEventPipe i
  · -- at the registration nothing was heard, and nothing with the ActionID is in flight
    subst hl
    cases ht with
    | @getEventPipe _ d hpc hd =>
        refine ⟨?_, ?_⟩
        · intro _ sm hsm hid
          rcases List.mem_append.mp hsm with hheard | hflight
          · simp [World.heard, World.heardSince, goto] at hheard
          · exact absurd hid (hlate rfl sm hflight)
        · intro reaction hret
          simp [goto] at hret
  · by_cases hstart : w'.pc i = .start
    · refine ⟨?_, ?_⟩
      · intro hfut
        rw [hstart] at hfut
        exact absurd rfl hfut
      · intro reaction hret
        rw [hstart] at hret
        cases hret
    · have hmark := (ht.started hl hstart).2
      have hopen : (w.pc i).future ≠ none → ∀ sm ∈ w'.heard calls i ++ w'.inFlight,
          sm.2.actionId = some (calls i).actionId → sm.1 = some i := by
        intro hfut sm hsm hid
        rcases ht.within_reach hmark hle hsm with hold | ⟨source, m, rfl, rfl⟩
        · exact h.inProgress hfut sm hold hid
        · exact hlate hid hfut
      have hheard : (w.pc i).future ≠ none → ∀ sm ∈ w'.heard calls i, sm.1 = some i := by
        intro hfut sm hsm
        exact hopen hfut sm (List.mem_append_left _ hsm)
          (of_decide_eq_true (List.mem_filter.mp hsm).2)
      by_cases hi : l.caller = some i
      · have hfut : (w.pc i).future ≠ none := by
          rcases ht.caller_open hi with ⟨heq, _⟩ | ⟨f, hf⟩
          · exact absurd heq hl
          · rw [hf]
            simp
        exact ⟨fun _ => hopen hfut, onlyOwn_of_heard hf' (hheard hfut)⟩
      · refine ⟨fun hfut => hopen (by rwa [(ht.other hi).1] at hfut), ?_⟩
        intro reaction hret
        rw [(ht.other hi).1] at hret
        obtain ⟨own, hpre, hmap, hall⟩ := h.returned reaction hret
        exact ⟨own, hpre.trans (ht.heard_prefix hmark hle), hmap, hall⟩

end Step

/--
**An invocation hears what is dispatched after it registered, and times out by itself.**

Let the ActionID of a call be registered only when the calls before have returned or
timed out. Then the call returns the response that the messages with its ActionID
complete, dispatched since it registered, and throws nothing but a timeout of its own.
If nothing comes late for it, all that it returns was sent in answer to it.
-/
theorem reuse_own_answer (calls : ι → Call) (i : ι) {labels : List (Label ι)} {w : World ι}
    (hseq : Run.Along (step calls) (Sequential calls (calls i).actionId) {} labels)
    (hrun : runLabels calls labels = .ok w) :
    (∀ r, w.pc i = .returned r →
        ∃ reaction, r = some reaction ∧ Completes ((w.heard calls i).map Prod.snd) reaction)
      ∧ (∀ err, w.pc i = .threw err →
        err = timeoutError (calls i).actionId ∧ w.elapsed i = true)
      ∧ (Run.Along (step calls) (NoLate calls i) {} labels → OnlyOwn calls w i) := by
  have hsession : Session calls (calls i).actionId w :=
    session_run (session_init calls _) hseq hrun
  have hf := hsession.follows i rfl
  unfold Follows at hf
  refine ⟨?_, ?_, ?_⟩
  · intro r hpc
    rw [hpc] at hf
    obtain ⟨reaction, hr, hcomp⟩ := response_done hf
    cases hr
    exact ⟨reaction, rfl, hcomp⟩
  · intro err hpc
    rw [hpc] at hf
    exact ⟨hf.1, hf.2.2⟩
  · intro hlate
    have hstep : ∀ (w : World ι) (l : Label ι) (w' : World ι),
        (Session calls (calls i).actionId w ∧ OwnSoFar calls w i) →
        (Sequential calls (calls i).actionId w l ∧ NoLate calls i w l) →
        step calls w l = .ok w' →
        Session calls (calls i).actionId w' ∧ OwnSoFar calls w' i := by
      intro w l w' hinv hcond hok
      obtain ⟨hs, hown⟩ := hinv
      obtain ⟨hseq, hlate⟩ := hcond
      have hs' := session_turn hs hseq (step_turn hok)
      exact ⟨hs', ownSoFar_turn (hs.marks i) (hs'.follows i rfl) hown hlate (step_turn hok)⟩
    exact (Run.invariant hstep ⟨session_init calls _, ownSoFar_init calls i⟩ (hseq.and hlate)
      hrun).2.returned

namespace Sample

/-- Two calls with one action; the first is `true`. -/
def retry : Bool → Call := fun _ => { action := ping "7", timeout := some 100 }

/-- The first call times out, the second gets the answer to it. -/
def lateAnswer : List (Label Bool) :=
  [.getEventPipe true, .write true, .waitTimeout true, .setExceptionOnPipe true, .get true,
    .getEventPipe false, .write false, .emit (some true) pong, .dispatch, .waitReady false,
    .get false]

/-- The first call times out, its answer comes to nobody, and the second gets its own. -/
def promptAnswer : List (Label Bool) :=
  [.getEventPipe true, .write true, .waitTimeout true, .setExceptionOnPipe true, .get true,
    .emit (some true) pong, .dispatch, .getEventPipe false, .write false,
    .emit (some false) pong, .dispatch, .waitReady false, .get false]

/-- The first call times out as its answer comes, and stores the exception after the second has
registered. -/
def delayedTimeout : List (Label Bool) :=
  [.getEventPipe true, .write true, .waitTimeout true, .emit (some true) pong, .dispatch,
    .getEventPipe false, .write false, .setExceptionOnPipe true, .waitReady false, .get false]

end Sample

/-- A retry gets its own answer if the one to the first call has come before. -/
theorem reuse_own_answer_prompt :
    ∃ w, runLabels Sample.retry Sample.promptAnswer = .ok w
      ∧ w.pc false = .returned (some (.event Sample.pong)) ∧ OnlyOwn Sample.retry w false := by
  have hrun : ∃ w, runLabels Sample.retry Sample.promptAnswer = .ok w
      ∧ w.pc false = .returned (some (.event Sample.pong)) := ⟨_, rfl, rfl⟩
  obtain ⟨w, hrun, hpc⟩ := hrun
  have hseq : Run.Along (step Sample.retry) (Sequential Sample.retry (ascii "7")) {}
      Sample.promptAnswer := by
    refine (Run.along_cons rfl).mpr ⟨fun _ j _ _ => trivial, ?_⟩
    iterate 6 refine (Run.along_cons rfl).mpr ⟨trivial, ?_⟩
    refine (Run.along_cons rfl).mpr ⟨fun _ j _ hj => ?_, ?_⟩
    · cases j with
      | true => trivial
      | false => exact absurd rfl hj
    iterate 5 refine (Run.along_cons rfl).mpr ⟨trivial, ?_⟩
    trivial
  have hlate : Run.Along (step Sample.retry) (NoLate Sample.retry false) {}
      Sample.promptAnswer := by
    refine (Run.along_cons rfl).mpr ⟨fun h => (by cases h), ?_⟩
    iterate 4 refine (Run.along_cons rfl).mpr ⟨trivial, ?_⟩
    refine (Run.along_cons rfl).mpr ⟨fun _ hfut => absurd rfl hfut, ?_⟩
    refine (Run.along_cons rfl).mpr ⟨trivial, ?_⟩
    refine (Run.along_cons rfl).mpr ⟨fun _ sm hsm => (by cases hsm), ?_⟩
    refine (Run.along_cons rfl).mpr ⟨trivial, ?_⟩
    refine (Run.along_cons rfl).mpr ⟨fun _ _ => rfl, ?_⟩
    iterate 3 refine (Run.along_cons rfl).mpr ⟨trivial, ?_⟩
    trivial
  exact ⟨w, hrun, hpc, (reuse_own_answer Sample.retry false hseq hrun).2.2 hlate⟩

/--
The answer to a call that has timed out is returned by its retry, in a history in which
the server answers in order and each call ends before the next begins. And where the
retry begins before the exception is stored, it is the retry that gets it.
-/
theorem late_answer_delivered :
    (∃ w, runLabels Sample.retry Sample.lateAnswer = .ok w
      ∧ Run.Along (step Sample.retry) (Sequential Sample.retry (ascii "7")) {} Sample.lateAnswer
      ∧ Run.Along (step Sample.retry) (InOrder Sample.retry) {} Sample.lateAnswer
      ∧ w.pc true = .threw (timeoutError (ascii "7"))
      ∧ w.traffic = [(some true, Sample.pong)]
      ∧ w.pc false = .returned (some (.event Sample.pong))
      ∧ ¬ OnlyOwn Sample.retry w false)
    ∧ ∃ w, runLabels Sample.retry Sample.delayedTimeout = .ok w
      ∧ w.pc false = .threw (timeoutError (ascii "7")) ∧ w.elapsed false = false := by
  refine ⟨⟨_, rfl, ?_, ?_, rfl, rfl, rfl, ?_⟩, _, rfl, rfl, rfl⟩
  · refine (Run.along_cons rfl).mpr ⟨fun _ j _ _ => trivial, ?_⟩
    iterate 4 refine (Run.along_cons rfl).mpr ⟨trivial, ?_⟩
    refine (Run.along_cons rfl).mpr ⟨fun _ j _ hj => ?_, ?_⟩
    · cases j with
      | true => trivial
      | false => exact absurd rfl hj
    iterate 5 refine (Run.along_cons rfl).mpr ⟨trivial, ?_⟩
    trivial
  · iterate 7 refine (Run.along_cons rfl).mpr ⟨trivial, ?_⟩
    -- nothing was sent before, and the first call has written
    refine (Run.along_cons rfl).mpr ⟨⟨rfl, List.mem_cons_self, fun sm hsm => (by cases hsm)⟩, ?_⟩
    iterate 3 refine (Run.along_cons rfl).mpr ⟨trivial, ?_⟩
    trivial
  · intro h
    obtain ⟨own, hpre, hmap, hall⟩ := h (.event Sample.pong) rfl
    -- all that the retry has heard is the answer to the first call
    have hown : own = [(some true, Sample.pong)] := by
      have hlen := congrArg List.length hmap
      rw [List.length_map] at hlen
      exact List.IsPrefix.eq_of_length hpre hlen
    have hsource := hall (some true, Sample.pong) (by rw [hown]; exact List.mem_cons_self)
    exact absurd hsource (by decide)

end CppAmi.Proof
