import CppAmi.Proof.Copies
import CppAmi.Proof.System

/-!
# What `invoke` can return

Whatever the ActionIDs, the timeouts and the traffic, up to the joins of both workers a call
that returns has a response of its own ActionID (`returned_shaped`): a single message, a list
that was refused or a list that is complete. `nullptr` is what `cleanup_object` leaves behind
the joins (`closed_outcomes`). So `is_success` tells the lists that can be copied from those
that cannot (`returned_success`).
-/

namespace CppAmi.Proof

open CppAmi EventDispatcher World Connection

/-! ## Responses in progress -/

/-- What a response can have come to, when its messages are `ok`. -/
def Proper (ok : Event → Prop) : Progress → Prop
  | .waiting | .done (.exception _) => True
  | .building l =>
    l.tail = none ∧ l.head.startsList = true ∧ l.head.accepted = true
      ∧ (∀ m ∈ l.events, m.endsList = false) ∧ ∀ m ∈ listMessages l, ok m
  | .done (.value (some reaction)) => reaction.Shaped ∧ ∀ m ∈ reaction.messages, ok m
  | .done _ => False

theorem Proper.mono {ok ok' : Event → Prop} (himp : ∀ m, ok m → ok' m) {p : Progress}
    (h : Proper ok p) : Proper ok' p := by
  cases p with
  | waiting => trivial
  | building l =>
      obtain ⟨htail, hstart, hacc, hopen, hok⟩ := h
      exact ⟨htail, hstart, hacc, hopen, fun m hm => himp m (hok m hm)⟩
  | done outcome =>
      cases outcome with
      | pending => exact h
      | exception err => trivial
      | value reaction =>
          cases reaction with
          | none => exact h
          | some reaction => exact ⟨h.1, fun m hm => himp m (h.2 m hm)⟩

/-- A message keeps a response proper, whichever of the cases it makes. -/
theorem Proper.receive {ok : Event → Prop} {p : Progress} (h : Proper ok p) {m : Event}
    (hm : ok m) : Proper ok (p.receive m) := by
  cases p with
  | waiting =>
      cases hstart : m.startsList with
      | false =>
          simp only [Progress.receive, hstart, Bool.not_false, if_true]
          exact ⟨hstart, by simpa [Reaction.messages] using hm⟩
      | true =>
          cases hacc : m.accepted with
          | true =>
              simp only [Progress.receive, hstart, hacc, Bool.not_true, if_true]
              exact ⟨rfl, hstart, hacc, by simp,
                by simpa [listMessages, Reaction.messages] using hm⟩
          | false =>
              simp only [Progress.receive, hstart, hacc, Bool.not_true]
              exact ⟨⟨hstart, by simp, hacc, rfl⟩, by simpa [Reaction.messages] using hm⟩
  | building l =>
      obtain ⟨htail, hstart, hacc, hopen, hok⟩ := h
      have hmore : ∀ m' ∈ l.head :: l.events ++ [m], ok m' := by
        intro m' hm'
        rcases List.mem_append.mp hm' with hm' | hm'
        · exact hok m' (by rwa [listMessages_open htail])
        · rw [List.mem_singleton.mp hm']
          exact hm
      cases hend : m.endsList with
      | true =>
          simp only [Progress.receive, hend, if_true]
          exact ⟨⟨hstart, hopen, hacc, hend⟩, hmore⟩
      | false =>
          simp only [Progress.receive, hend]
          refine ⟨htail, hstart, hacc, ?_, ?_⟩
          · intro m' hm'
            rcases List.mem_append.mp hm' with hm' | hm'
            · exact hopen m' hm'
            · rw [List.mem_singleton.mp hm']
              exact hend
          · show ∀ m' ∈ listMessages { l with events := l.events ++ [m] }, ok m'
            rw [listMessages_open (l := { l with events := l.events ++ [m] }) htail]
            exact hmore
  | done outcome => exact h

theorem Proper.step {ok : Event → Prop} {p : Progress} (h : Proper ok p) {op : PipeOp}
    (hmsg : ∀ m, op = .message m → ok m)
    (hclose : ∀ outcome, op = .close outcome → ∃ err, outcome = .exception err) :
    Proper ok (p.step op) := by
  cases op with
  | message m => exact h.receive (hmsg m rfl)
  | close outcome =>
      obtain ⟨err, rfl⟩ := hclose outcome rfl
      cases p with
      | waiting => trivial
      | building l => trivial
      | done outcome => exact h

/-! ## Calls -/

section Calls

variable {ι : Type} {calls : ι → Call} {w w' : World ι} {l : CppAmi.Label ι}

/-- A message that the dispatcher has taken for a call's ActionID. -/
def Taken (calls : ι → Call) (w : World ι) (i : ι) (m : Event) : Prop :=
  m.actionId = some (calls i).actionId ∧ m ∈ w.delivered.map Prod.snd

/-- The future of a call stands for a proper response, and so does its result. -/
structure Holds (calls : ι → Call) (w : World ι) (i : ι) : Prop where
  future : ∀ f, (w.pc i).future = some f →
    ∃ p, Tracks (abs w.dispatcher) (calls i).actionId f p ∧ Proper (Taken calls w i) p
  returned : ∀ r, w.pc i = .returned r →
    ∃ reaction, r = some reaction ∧ reaction.Shaped ∧ ∀ m ∈ reaction.messages, Taken calls w i m

theorem holds_init (calls : ι → Call) (i : ι) : Holds calls {} i where
  future := by
    intro f hf
    cases hf
  returned := by
    intro r hr
    cases hr

variable [DecidableEq ι]

theorem Turn.taken (h : Turn calls w l w') {i : ι} {m : Event} (hm : Taken calls w i m) :
    Taken calls w' i m := by
  refine ⟨hm.1, ?_⟩
  rcases h.flow with ⟨_, _, hsame⟩ | ⟨_, _, _, _, hsame⟩ | ⟨sm, _, _, hmore⟩
  · rw [hsame]
    exact hm.2
  · rw [hsame]
    exact hm.2
  · rw [hmore, List.map_append]
    exact List.mem_append_left _ hm.2

/-- What a turn does to the pipe of a call: its ActionID's message is taken, or a timeout closes
it. -/
theorem Turn.onPipe (h : Turn calls w l w') {i : ι} {op : PipeOp}
    (hop : (opOf calls w l).bind (Op.onPipe (calls i).actionId) = some op) :
    (∀ m, op = .message m → Taken calls w' i m)
      ∧ ∀ outcome, op = .close outcome → ∃ err, outcome = .exception err := by
  cases h with
  | getEventPipe hpc hd => cases hop
  | @setExceptionOnPipe j f d hpc hd =>
      rw [opOf, Option.bind_some, Op.onPipe] at hop
      split at hop
      · cases hop
        exact ⟨fun _ hm => PipeOp.noConfusion hm, fun _ ho => ⟨_, (PipeOp.close.inj ho).symm⟩⟩
      · cases hop
  | @dispatch source m rest d hhead hd =>
      rw [opOf, hhead] at hop
      change Op.onPipe _ (.dispatchEvent m) = some op at hop
      rw [Op.onPipe] at hop
      split at hop
      · rename_i hid
        cases hop
        refine ⟨?_, fun _ ho => PipeOp.noConfusion ho⟩
        intro m' hm'
        cases hm'
        exact ⟨hid, by simp⟩
      · cases hop
  | _ => cases hop

/-- A pipe that a call holds goes on standing for a proper response. -/
theorem Turn.proper (h : Turn calls w l w') (hs : Sound w.dispatcher) {i : ι} {f : Nat}
    {p : Progress} (ht : Tracks (abs w.dispatcher) (calls i).actionId f p)
    (hp : Proper (Taken calls w i) p) :
    ∃ p', Tracks (abs w'.dispatcher) (calls i).actionId f p' ∧ Proper (Taken calls w' i) p' := by
  refine ⟨_, h.tracks hs ht, ?_⟩
  have hmono := hp.mono fun m hm => h.taken hm
  cases hop : (opOf calls w l).bind (Op.onPipe (calls i).actionId) with
  | none => exact hmono
  | some op => exact hmono.step (h.onPipe hop).1 (h.onPipe hop).2

omit [DecidableEq ι] in
/-- A pipe just registered has no message yet, or is broken since its ActionID has one. -/
theorem tracks_registered {d d' : EventDispatcher} (hs : Sound d) {a : Bytes}
    (hd : d.apply (.getEventPipe a) = .ok d') (ok : Event → Prop) :
    ∃ p, Tracks (abs d') a (d.getEventPipe a).2 p ∧ Proper ok p := by
  by_cases hfree : a ∈ d.promiseMap
  · refine ⟨.done (.exception .brokenPromise), ?_, trivial⟩
    obtain ⟨_, hmove⟩ := hs.step hd
    cases hslot : (abs d).slot a with
    | none => exact absurd hfree (abs_slot_none_iff.mp hslot)
    | some fp =>
        rw [Tracks, hmove.eq_step]
        simp [Router.step, hslot, Router.refused, getEventPipe_future]
  · obtain ⟨d'', hstep, _, htracks⟩ := tracks_opened hfree hs
    rw [hd] at hstep
    cases hstep
    exact ⟨.waiting, htracks, trivial⟩

/-- **Every turn keeps what a call holds proper.** -/
theorem holds_turn (hs : Sound w.dispatcher) {i : ι} (h : Holds calls w i)
    (ht : Turn calls w l w') : Holds calls w' i := by
  by_cases hi : l.caller = some i
  · have hadv := ht.advance hi
    refine ⟨?_, ?_⟩
    · intro f hf
      by_cases hreg : l = .getEventPipe i
      · subst hreg
        cases ht with
        | getEventPipe hpc hd =>
            simp only [goto, Function.update_self, Pc.future] at hf
            cases hf
            exact tracks_registered hs hd _
      · -- the call has had its future before
        have hold : (w.pc i).future = some f := by
          generalize w.pc i = pc at hadv ⊢
          generalize w'.pc i = pc' at hadv hf
          cases hadv with
          | getEventPipe => exact absurd rfl hreg
          | write hnext => rcases hnext with rfl | rfl <;> exact hf
          | writeThrows => cases hf
          | returned hvalue => cases hf
          | threw herr => cases hf
          | _ => exact hf
        obtain ⟨p, htracks, hp⟩ := h.future f hold
        exact ht.proper hs htracks hp
    · intro r hr
      rw [hr] at hadv
      have hget : ∃ f, w.pc i = .getting f ∧ w.dispatcher.shared[f]? = some (.value r) := by
        generalize w.pc i = pc at hadv
        cases hadv with
        | write hnext => rcases hnext with hn | hn <;> cases hn
        | returned hvalue => exact ⟨_, rfl, hvalue⟩
      obtain ⟨f, hpc, hvalue⟩ := hget
      obtain ⟨p, htracks, hp⟩ := h.future f (by rw [hpc]; rfl)
      obtain ⟨outcome, rfl⟩ := htracks.done_of_shared hs.inv (by rw [abs_shared, hvalue]; simp)
      have houtcome : outcome = .value r := htracks.outcome_eq hs.inv hvalue
      subst houtcome
      cases r with
      | none => exact hp.elim
      | some reaction => exact ⟨reaction, rfl, hp.1, fun m hm => ht.taken (hp.2 m hm)⟩
  · refine ⟨?_, ?_⟩
    · intro f hf
      rw [(ht.other hi).1] at hf
      obtain ⟨p, htracks, hp⟩ := h.future f hf
      exact ht.proper hs htracks hp
    · intro r hr
      rw [(ht.other hi).1] at hr
      obtain ⟨reaction, hreaction, hshape, hok⟩ := h.returned r hr
      exact ⟨reaction, hreaction, hshape, fun m hm => ht.taken (hok m hm)⟩

end Calls

/-! ## The theorems -/

section

variable {ι : Type} [DecidableEq ι]

/-- What a call has returned is what its future stood for. -/
theorem run_holds {calls : ι → Call} {sockFd : Int} {labels : List (Connection.Label ι)}
    {c : Connection ι} (hrun : Connection.runLabels calls sockFd labels = .ok c) (i : ι) :
    ∃ w, StandsFor (fun _ => none) w c ∧ Holds calls w i := by
  have hkeep : ∀ w l w', Sound w.dispatcher ∧ Holds calls w i → True →
      World.step calls w l = .ok w' → Sound w'.dispatcher ∧ Holds calls w' i :=
    fun _ _ _ h _ hstep => ⟨(step_turn hstep).sound h.1, holds_turn h.1 h.2 (step_turn hstep)⟩
  obtain ⟨w, hstands, _, hholds⟩ := run_stands (carries_true calls fun _ => none) hkeep
    ⟨sound_init, holds_init calls i⟩ (Run.along_of_forall (fun _ _ => trivial) _ labels) hrun
  exact ⟨w, hstands.stands, hholds⟩

/--
**A call that returns has a response of its own ActionID.**

In every history up to the joins of both workers, whatever ActionIDs the calls have, whatever
times out and whatever comes in: what a call has returned is not `nullptr`, its messages name
the ActionID of the call and were taken from the bytes, and they are one message, a refused
list or a whole list. What a call gets that still waits behind the joins is said by
`closed_outcomes`.
-/
theorem returned_shaped (calls : ι → Call) (sockFd : Int) {labels : List (Connection.Label ι)}
    {c : Connection ι} (hrun : Connection.runLabels calls sockFd labels = .ok c) {i : ι}
    {r : Option Reaction} (hpc : c.pc i = .returned r) :
    ∃ reaction, r = some reaction ∧ reaction.Shaped
      ∧ ∀ m ∈ reaction.messages, m.actionId = some (calls i).actionId ∧ m ∈ c.dispatched := by
  obtain ⟨w, hstands, hholds⟩ := run_holds hrun i
  rw [← hstands.pc] at hpc
  obtain ⟨reaction, hreaction, hshape, htaken⟩ := hholds.returned r hpc
  refine ⟨reaction, hreaction, hshape, ?_⟩
  intro m hm
  rw [← hstands.delivered]
  exact htaken m hm

theorem returned_shaped_answered :
    ∃ c r, Connection.runLabels (fun _ => { action := Sample.ping "7" }) 3 Sample.answered = .ok c
      ∧ c.pc () = .returned r
      ∧ ∃ reaction, r = some reaction ∧ reaction.Shaped
        ∧ ∀ m ∈ reaction.messages, m.actionId = some (Sample.ping "7").actionId
          ∧ m ∈ c.dispatched := by
  have hrun : ∃ c r, Connection.runLabels (fun _ => { action := Sample.ping "7" }) 3
      Sample.answered = .ok c ∧ c.pc () = .returned r := ⟨_, _, rfl, rfl⟩
  obtain ⟨c, r, hrun, hpc⟩ := hrun
  exact ⟨c, r, hrun, hpc, returned_shaped _ 3 hrun hpc⟩

omit [DecidableEq ι] in
theorem eventIsSuccess_eq (m : Event) :
    Event.isSuccess m = ((m.getValue (ascii "Response")).isNone || m.accepted) := by
  unfold Event.isSuccess KeyValDict.accepted Reaction.isSuccess
  cases m.getValue (ascii "Response") with
  | none => rfl
  | some response => simp [beq_eq_decide]

omit [DecidableEq ι] in
/-- `get_event` does not fail below `event_count`. -/
theorem getEvent_member {l : EventList} {eventIdx : Nat} (h : eventIdx < l.eventCount) :
    ∃ m, l.getEvent eventIdx = .ok m ∧ m ∈ l.events := by
  have hget : l.events[eventIdx]? = some (l.events.get ⟨eventIdx, h⟩) :=
    List.getElem?_eq_getElem h
  refine ⟨l.events.get ⟨eventIdx, h⟩, ?_, List.get_mem _ _⟩
  unfold EventList.getEvent
  rw [hget]

/--
**What `is_success` says of a reaction that was returned.**

A failure is a single message. A list is a success exactly when it can be copied: one that
was refused has no tail, and `EventList`'s copies dereference the tail. What `get_event`
hands out is a member, up to `event_count`, and never the message that ends the list.
-/
theorem returned_success (calls : ι → Call) (sockFd : Int) {labels : List (Connection.Label ι)}
    {c : Connection ι} (hrun : Connection.runLabels calls sockFd labels = .ok c) {i : ι}
    {reaction : Reaction} (hpc : c.pc i = .returned (some reaction)) :
    (reaction.reportsSuccess = false →
        ∃ m, reaction.messages = [m] ∧ m.accepted = false)
      ∧ ∀ l, reaction = .eventList l →
        ((∃ l', EventList.copy l = .ok l') ↔ reaction.reportsSuccess = true)
          ∧ ∀ eventIdx < l.eventCount, ∃ m, l.getEvent eventIdx = .ok m
            ∧ m ∈ reaction.messages ∧ m.endsList = false := by
  obtain ⟨w, hstands, hholds⟩ := run_holds hrun i
  rw [← hstands.pc] at hpc
  obtain ⟨_, hreaction, hshape, _⟩ := hholds.returned _ hpc
  cases hreaction
  refine ⟨?_, ?_⟩
  · intro hfail
    cases reaction with
    | event m =>
        rw [Reaction.reportsSuccess, eventIsSuccess_eq, Bool.or_eq_false_iff] at hfail
        exact ⟨m, rfl, hfail.2⟩
    | eventList l =>
        rw [Reaction.reportsSuccess, isSuccess_eq_head] at hfail
        obtain ⟨_, _, hend⟩ := hshape
        cases htail : l.tail with
        | none =>
            rw [htail] at hend
            exact ⟨l.head, by simp [Reaction.messages, hend.2, htail], hfail⟩
        | some tail =>
            rw [htail] at hend
            rw [hend.1] at hfail
            cases hfail
  · rintro l rfl
    obtain ⟨_, hopen, hend⟩ := hshape
    refine ⟨?_, ?_⟩
    · rw [Reaction.reportsSuccess, isSuccess_eq_head]
      constructor
      · rintro ⟨l', hcopy⟩
        obtain ⟨htail, _⟩ := copy_eq_ok.mp hcopy
        cases hl : l.tail with
        | none => exact absurd hl htail
        | some tail =>
            rw [hl] at hend
            exact hend.1
      · intro hacc
        refine ⟨l, copy_eq_ok.mpr ⟨?_, rfl⟩⟩
        intro htail
        rw [htail, hacc] at hend
        exact absurd hend.1 (by simp)
    · intro eventIdx hidx
      obtain ⟨m, hget, hmem⟩ := getEvent_member hidx
      refine ⟨m, hget, ?_, hopen m hmem⟩
      exact List.mem_append_left _ (List.mem_cons_of_mem _ hmem)

theorem returned_success_answered :
    ∃ c reaction, Connection.runLabels (fun _ => { action := Sample.ping "7" }) 3 Sample.answered
        = .ok c
      ∧ c.pc () = .returned (some reaction)
      ∧ (reaction.reportsSuccess = false →
          ∃ m, reaction.messages = [m] ∧ m.accepted = false)
      ∧ ∀ l, reaction = .eventList l →
        ((∃ l', EventList.copy l = .ok l') ↔ reaction.reportsSuccess = true)
          ∧ ∀ eventIdx < l.eventCount, ∃ m, l.getEvent eventIdx = .ok m
            ∧ m ∈ reaction.messages ∧ m.endsList = false := by
  have hrun : ∃ c reaction, Connection.runLabels (fun _ => { action := Sample.ping "7" }) 3
      Sample.answered = .ok c ∧ c.pc () = .returned (some reaction) := ⟨_, _, rfl, rfl⟩
  obtain ⟨c, reaction, hrun, hpc⟩ := hrun
  exact ⟨c, reaction, hrun, hpc, returned_success _ 3 hrun hpc⟩

end

end CppAmi.Proof
