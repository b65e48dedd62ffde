import CppAmi.Proof.Sessions

/-!
# Every call gets its own answer

Untimed calls with distinct ActionIDs, and a server that answers a call only once the
call has written its action. An invocation registers before it writes, so it hears every
message the server ever sends it, and what it returns is made of the first of these
(`invoke_agreement`).
-/

namespace CppAmi.Proof

open CppAmi EventDispatcher World

variable {ι : Type} [DecidableEq ι]

/-! ## Traffic -/

section Turns

variable {calls : ι → Call} {w w' : World ι} {l : Label ι}

/-- What the server has sent grows by what it sends. -/
theorem Turn.traffic (h : Turn calls w l w') :
    w'.traffic = w.traffic
      ∨ ∃ source m, l = .emit source m ∧ w'.traffic = w.traffic ++ [(source, m)] := by
  unfold World.traffic
  rcases h.flow with ⟨_, hflight, hdel⟩ | ⟨source, m, hl, hflight, hdel⟩ | ⟨sm, _, hhead, hdel⟩
  · rw [hflight, hdel]
    exact Or.inl rfl
  · rw [hflight, hdel, ← List.append_assoc]
    exact Or.inr ⟨source, m, hl, rfl⟩
  · rw [hhead, hdel, List.append_assoc]
    exact Or.inl rfl

/-- The wire grows by what a call writes. -/
theorem Turn.wire (h : Turn calls w l w') :
    w'.wire = w.wire
      ∨ ∃ i, l = .write i ∧ (w'.pc i).Sent
        ∧ w'.wire = w.wire ++ [(i, (calls i).action.toString)] := by
  cases h with
  | @write i f hpc =>
      refine Or.inr ⟨i, rfl, ?_, rfl⟩
      simp only [goto, Function.update_self]
      split <;> trivial
  | _ => exact Or.inl rfl

/-- What is written stays written. -/
theorem Turn.sent (h : Turn calls w l w') {i : ι} (hsent : (w.pc i).Sent) : (w'.pc i).Sent := by
  by_cases hi : l.caller = some i
  · have hadv := h.advance hi
    generalize w.pc i = pc at hadv hsent
    generalize w'.pc i = pc' at hadv
    cases hadv with
    | getEventPipe => exact hsent.elim
    | write hnext => exact hsent.elim
    | writeThrows => exact hsent.elim
    | _ => trivial
  · rw [(h.other hi).1]
    exact hsent

end Turns

/-! ## The invariant -/

structure Agrees (calls : ι → Call) (w : World ι) : Prop where
  sessions : ∀ a, Session calls a w
  /-- What is on the wire was written. -/
  written : ∀ i text, (i, text) ∈ w.wire → (w.pc i).Sent
  /-- The server answers what is on the wire. -/
  answered : ∀ sm ∈ w.traffic, ∀ i, sm.2.actionId = some (calls i).actionId →
    ∃ text, (i, text) ∈ w.wire
  /-- A call hears all that is dispatched with its ActionID. -/
  heard : ∀ i, w.pc i ≠ .start → w.heardSince (calls i).actionId 0 = w.heard calls i
  unthrown : ∀ i err, w.pc i ≠ .writeThrew err
  /-- What goes to the callback came too late for the response. -/
  notified : ∀ m ∈ w.dispatcher.notified, ∀ i, m.actionId = some (calls i).actionId →
    w.pc i ≠ .start ∧ ∃ outcome, w.response calls i = .done outcome

omit [DecidableEq ι] in
theorem agrees_init (calls : ι → Call) : Agrees calls {} where
  sessions := session_init calls
  written := by
    intro i text h
    cases h
  answered := by
    intro sm h
    cases h
  heard := by
    intro i h
    exact absurd rfl h
  unthrown := by
    intro i err h
    cases h
  notified := by
    intro m h
    cases h

section Step

variable {calls : ι → Call} {w w' : World ι} {l : Label ι}

theorem written_turn (h : ∀ i text, (i, text) ∈ w.wire → (w.pc i).Sent)
    (ht : Turn calls w l w') : ∀ i text, (i, text) ∈ w'.wire → (w'.pc i).Sent := by
  intro i text hmem
  rcases ht.wire with hsame | ⟨j, rfl, hsent, hwire⟩
  · rw [hsame] at hmem
    exact ht.sent (h i text hmem)
  · rw [hwire] at hmem
    rcases List.mem_append.mp hmem with hmem | hmem
    · exact ht.sent (h i text hmem)
    · cases List.mem_singleton.mp hmem
      exact hsent

theorem answered_turn (h : ∀ sm ∈ w.traffic, ∀ i, sm.2.actionId = some (calls i).actionId →
      ∃ text, (i, text) ∈ w.wire) (hanswer : Answering calls w l) (ht : Turn calls w l w') :
    ∀ sm ∈ w'.traffic, ∀ i, sm.2.actionId = some (calls i).actionId →
      ∃ text, (i, text) ∈ w'.wire := by
  intro sm hsm i hi
  have hold : ∃ text, (i, text) ∈ w.wire := by
    rcases ht.traffic with hsame | ⟨source, m, rfl, hmore⟩
    · rw [hsame] at hsm
      exact h sm hsm i hi
    · rw [hmore] at hsm
      rcases List.mem_append.mp hsm with hsm | hsm
      · exact h sm hsm i hi
      · rw [List.mem_singleton.mp hsm] at hi
        exact ⟨_, hanswer i hi⟩
  obtain ⟨text, htext⟩ := hold
  rcases ht.wire with hsame | ⟨j, _, _, hwire⟩
  · exact ⟨text, by rw [hsame]; exact htext⟩
  · exact ⟨text, by rw [hwire]; exact List.mem_append_left _ htext⟩

theorem heard_turn (h : Agrees calls w) (ht : Turn calls w l w') {i : ι}
    (hpc' : w'.pc i ≠ .start) :
    w'.heardSince (calls i).actionId 0 = w'.heard calls i := by
  by_cases hl : l = .getEventPipe i
  · -- the call registers, and so far nothing was sent to it
    subst hl
    cases ht with
    | @getEventPipe _ d hpc hd =>
        have hnone : w.heardSince (calls i).actionId 0 = [] := by
          unfold World.heardSince
          rw [List.drop_zero, List.filter_eq_nil_iff]
          intro sm hsm hid
          obtain ⟨text, htext⟩ := h.answered sm (List.mem_append_left _ hsm) i
            (of_decide_eq_true hid)
          have hsent := h.written i text htext
          rw [hpc] at hsent
          exact hsent
        show w.heardSince (calls i).actionId 0 = _
        rw [hnone]
        simp [World.heard, World.heardSince, goto]
  · obtain ⟨hpc, hmark⟩ := ht.started hl hpc'
    unfold World.heard
    rw [hmark]
    have hsame := h.heard i hpc
    unfold World.heard at hsame
    rw [ht.heardSince _ (Nat.zero_le _), ht.heardSince _ ((h.sessions []).marks i), hsame]

omit [DecidableEq ι] in
/-- An untimed call that has written waits for its response, or has returned it. -/
theorem follows_untimed {i : ι} (hf : Follows calls w i) (huntimed : (calls i).timeout = none)
    (hsent : (w.pc i).Sent) :
    (∃ f, w.pc i = .getting f
        ∧ Tracks (abs w.dispatcher) (calls i).actionId f (w.response calls i))
      ∨ ∃ r, w.pc i = .returned r ∧ w.response calls i = .done (.value r) := by
  have hnot : ¬ (calls i).timeout.isSome := by simp [huntimed]
  unfold Follows at hf
  cases hp : w.pc i with
  | start => rw [hp] at hsent; exact hsent.elim
  | registered f => rw [hp] at hsent; exact hsent.elim
  | writeThrew err => rw [hp] at hsent; exact hsent.elim
  | waiting f => rw [hp] at hf; exact absurd hf.1 hnot
  | timedOut f => rw [hp] at hf; exact absurd hf.1 hnot
  | threw err => rw [hp] at hf; exact absurd hf.2.1 hnot
  | returned r => rw [hp] at hf; exact Or.inr ⟨r, rfl, hf⟩
  | getting f =>
      rw [hp] at hf
      rcases hf.1 with htr | ⟨htimed, _⟩
      · exact Or.inl ⟨f, rfl, htr⟩
      · exact absurd htimed hnot

omit [DecidableEq ι] in
/-- Once an untimed call has written, its response is finished if its pipe is closed. -/
theorem sent_done (h : Agrees calls w) {i : ι} (huntimed : (calls i).timeout = none)
    (hsent : (w.pc i).Sent) (hfree : (calls i).actionId ∉ w.dispatcher.promiseMap) :
    ∃ outcome, w.response calls i = .done outcome := by
  have hf := (h.sessions (calls i).actionId).follows i rfl
  rcases follows_untimed hf huntimed hsent with ⟨f, _, htr⟩ | ⟨r, _, hdone⟩
  · rcases htr.cases (h.sessions []).sound.inv with ⟨_, hslot⟩ | ⟨outcome, hdone, _⟩
    · rw [abs_slot_none_iff.mpr hfree] at hslot
      cases hslot
    · exact ⟨outcome, hdone⟩
  · exact ⟨_, hdone⟩

theorem notified_turn (h : Agrees calls w) (huntimed : ∀ i, (calls i).timeout = none)
    (ht : Turn calls w l w') {m : Event} (hm : m ∈ w'.dispatcher.notified) {i : ι}
    (hi : m.actionId = some (calls i).actionId) :
    w'.pc i ≠ .start ∧ ∃ outcome, w'.response calls i = .done outcome := by
  have hsound := (h.sessions []).sound
  -- whatever came too late before still did
  have hstay : w.pc i ≠ .start → (∃ outcome, w.response calls i = .done outcome) →
      w'.pc i ≠ .start ∧ ∃ outcome, w'.response calls i = .done outcome := by
    intro hpc hfinished
    obtain ⟨outcome, hdone⟩ := hfinished
    have hl : l ≠ .getEventPipe i := by
      intro heq
      subst heq
      exact hpc ht.start_of_getEventPipe
    have hpc' : w'.pc i ≠ .start := by
      by_cases hi : l.caller = some i
      · exact ht.not_start hi
      · rw [(ht.other hi).1]
        exact hpc
    refine ⟨hpc', outcome, ?_⟩
    rw [ht.response (ht.started hl hpc').2 ((h.sessions []).marks i), hdone, elim_done]
  rcases ht.dispatcher with ⟨_, hd⟩ | ⟨op, hop, hd⟩
  · rw [hd] at hm
    obtain ⟨hpc, hdone⟩ := h.notified m hm i hi
    exact hstay hpc hdone
  · rw [notified_step (hsound.step hd).2] at hm
    rcases List.mem_append.mp hm with hm | hm
    · obtain ⟨hpc, hdone⟩ := h.notified m hm i hi
      exact hstay hpc hdone
    · -- the message goes to the callback now: its call had written, and its pipe is closed
      obtain ⟨rfl, hfree⟩ := unrouted_mem hm
      obtain ⟨source, hsm⟩ := opOf_dispatch hop
      obtain ⟨text, htext⟩ := h.answered (source, m) (List.mem_append_right _ hsm) i hi
      have hsent := h.written i text htext
      refine hstay ?_ (sent_done h (huntimed i) hsent (hfree _ hi))
      intro hs
      rw [hs] at hsent
      exact hsent

theorem agrees_turn (h : Agrees calls w) (huntimed : ∀ i, (calls i).timeout = none)
    (hinj : ∀ i j, (calls i).actionId = (calls j).actionId → i = j)
    (hanswer : Answering calls w l) (ht : Turn calls w l w') : Agrees calls w' where
  sessions := by
    intro a
    refine session_turn (h.sessions a) (sequential_of_alone ?_ w l) ht
    intro i j hi hj
    exact hinj j i (hj.trans hi.symm)
  written := written_turn h.written ht
  answered := answered_turn h.answered hanswer ht
  heard := fun i hpc => heard_turn h ht hpc
  unthrown := by
    intro i err hpc
    by_cases hi : l.caller = some i
    · obtain ⟨what, rfl⟩ := ht.writeThrew_origin hi hpc
      exact hanswer
    · rw [(ht.other hi).1] at hpc
      exact h.unthrown i err hpc
  notified := fun m hm i hi => notified_turn h huntimed ht hm hi

end Step

/-! ## The theorem -/

theorem completes_mono {ms ms' : List Event} {reaction : Reaction} (h : Completes ms reaction)
    (hms : ms <+: ms') : Completes ms' reaction :=
  ⟨h.first.trans hms, h.complete, h.least⟩

section

variable {calls : ι → Call} {w : World ι} {i : ι}

omit [DecidableEq ι] in
/-- What a call has heard is the beginning of what was sent to it. -/
theorem Agrees.heard_emitted (h : Agrees calls w) (hpc : w.pc i ≠ .start) :
    (w.heard calls i).map Prod.snd <+: w.emitted (calls i).actionId := by
  rw [← h.heard i hpc, World.heardSince, World.emitted, World.traffic, List.drop_zero,
    List.filter_append, List.map_append]
  exact List.prefix_append _ _

omit [DecidableEq ι] in
/-- A call that has heard its response has written. -/
theorem Agrees.sent_of_done (h : Agrees calls w) {outcome : Shared}
    (hdone : w.response calls i = .done outcome) : (w.pc i).Sent := by
  cases hheard : w.heard calls i with
  | nil =>
      unfold World.response at hdone
      rw [hheard] at hdone
      cases hdone
  | cons sm rest =>
      have hmem : sm ∈ w.heard calls i := by
        rw [hheard]
        exact List.mem_cons_self
      obtain ⟨hdrop, hid⟩ := List.mem_filter.mp hmem
      obtain ⟨text, htext⟩ := h.answered sm
        (List.mem_append_left _ (List.mem_of_mem_drop hdrop)) i (of_decide_eq_true hid)
      exact h.written i text htext

end

/--
**Every invoke returns the answer to its own request.**

Untimed calls with distinct ActionIDs whose writes succeed, and a server that sends
messages with a call's ActionID only after the call has written: in every state any
history reaches, a call that has returned has the response that the messages sent to it
complete, from the first on, and it does not throw. If a message with its ActionID has
gone to the callback, that response was complete.
-/
theorem invoke_agreement (calls : ι → Call) (huntimed : ∀ i, (calls i).timeout = none)
    (hinj : ∀ i j, (calls i).actionId = (calls j).actionId → i = j) {labels : List (Label ι)}
    {w : World ι} (hanswer : Run.Along (step calls) (Answering calls) {} labels)
    (hrun : runLabels calls labels = .ok w) (i : ι) :
    (∀ r, w.pc i = .returned r →
        ∃ reaction, r = some reaction ∧ Completes (w.emitted (calls i).actionId) reaction)
      ∧ (∀ err, w.pc i ≠ .threw err)
      ∧ ∀ m ∈ w.dispatcher.notified, m.actionId = some (calls i).actionId →
        ∃ reaction, Completes (w.emitted (calls i).actionId) reaction
          ∧ (w.pc i = .returned (some reaction)
            ∨ ∃ f, w.pc i = .getting f
              ∧ w.dispatcher.shared[f]? = some (.value (some reaction))) := by
  have h : Agrees calls w :=
    Run.invariant (fun _ _ _ h hanswer hstep =>
      agrees_turn h huntimed hinj hanswer (step_turn hstep)) (agrees_init calls) hanswer hrun
  have hf := (h.sessions (calls i).actionId).follows i rfl
  refine ⟨?_, ?_, ?_⟩
  · intro r hpc
    unfold Follows at hf
    rw [hpc] at hf
    obtain ⟨reaction, hr, hcomp⟩ := response_done hf
    cases hr
    exact ⟨reaction, rfl, completes_mono hcomp (h.heard_emitted (by rw [hpc]; simp))⟩
  · intro err hpc
    unfold Follows at hf
    rw [hpc] at hf
    exact absurd hf.2.1 (by simp [huntimed i])
  · intro m hm hi
    obtain ⟨hpc, outcome, hdone⟩ := h.notified m hm i hi
    obtain ⟨reaction, rfl, hcomp⟩ := response_done hdone
    refine ⟨reaction, completes_mono hcomp (h.heard_emitted hpc), ?_⟩
    rcases follows_untimed hf (huntimed i) (h.sent_of_done hdone) with ⟨f, hp, htr⟩ | ⟨r, hp, hr⟩
    · rw [hdone] at htr
      exact Or.inr ⟨f, hp, htr.1⟩
    · rw [hdone] at hr
      cases hr
      exact Or.inl hp

/-- The actions `7` and `8`, invoked at once. -/
theorem invoke_agreement_two :
    ∃ w, runLabels (fun b : Bool => { action := Sample.ping (if b then "7" else "8") })
        [.getEventPipe true, .getEventPipe false, .write true, .emit (some true) Sample.head,
          .emit none Sample.hangup, .dispatch, .dispatch, .emit (some true) Sample.tail,
          .dispatch, .get true] = .ok w
      ∧ ∃ reaction, w.pc true = .returned (some reaction)
        ∧ Completes (w.emitted (ascii "7")) reaction := by
  have hrun : ∃ w, runLabels (fun b : Bool => { action := Sample.ping (if b then "7" else "8") })
      [.getEventPipe true, .getEventPipe false, .write true, .emit (some true) Sample.head,
        .emit none Sample.hangup, .dispatch, .dispatch, .emit (some true) Sample.tail,
        .dispatch, .get true] = .ok w ∧ w.pc true = .returned (some (.eventList
          { head := Sample.head, tail := some Sample.tail })) := ⟨_, rfl, rfl⟩
  obtain ⟨w, hrun, hpc⟩ := hrun
  have hanswers : ∀ m : Event, m.actionId = some (ascii "7") → ∀ b : Bool,
      m.actionId = some (ascii (if b then "7" else "8")) → b = true := by
    intro m hm b hb
    cases b with
    | true => rfl
    | false =>
        rw [hm] at hb
        exact absurd (Option.some.inj hb) (by decide)
  have hresult := invoke_agreement _ (fun _ => rfl) (fun i j h => by
    cases i <;> cases j <;> first | rfl | exact absurd h (by decide)) (by
    iterate 3 refine (Run.along_cons rfl).mpr ⟨trivial, ?_⟩
    refine (Run.along_cons rfl).mpr ⟨?_, ?_⟩
    · intro b hb
      rw [hanswers Sample.head rfl b hb]
      exact List.mem_cons_self
    refine (Run.along_cons rfl).mpr ⟨?_, ?_⟩
    · intro b hb
      cases hb
    iterate 2 refine (Run.along_cons rfl).mpr ⟨trivial, ?_⟩
    refine (Run.along_cons rfl).mpr ⟨fun b hb => ?_, ?_⟩
    · rw [hanswers Sample.tail rfl b hb]
      exact List.mem_cons_self
    iterate 2 refine (Run.along_cons rfl).mpr ⟨trivial, ?_⟩
    trivial)
    hrun true
  obtain ⟨reaction, hr, hcomp⟩ := hresult.1 _ hpc
  exact ⟨w, hrun, reaction, by rw [hpc, hr], hcomp⟩

end CppAmi.Proof
