import CppAmi.Proof.Slots

/-!
# Response assembly

What the future of a pipe reports is `progressOf` the operations that named the
pipe's ActionID after it was registered. The rest of this file reads that function
off: on messages alone it is a single event, a failed list, or a list that is
finished by its first tail.
-/

namespace CppAmi.Proof

open CppAmi EventDispatcher

/-- Futures are numbered as they are handed out. -/
theorem getEventPipe_future (d : EventDispatcher) (a : Bytes) :
    (d.getEventPipe a).2 = d.shared.length := by
  rw [getEventPipe]
  split <;> rfl

/-- A pipe just registered stands for a response with no message yet. -/
theorem tracks_opened {d : EventDispatcher} {a : Bytes} (hfree : a ∉ d.promiseMap)
    (hs : Sound d) :
    ∃ d', d.apply (.getEventPipe a) = .ok d' ∧ Sound d'
      ∧ Tracks (abs d') a (d.getEventPipe a).2 .waiting := by
  obtain ⟨d', hstep, hsound, hmove⟩ := hs.apply (.getEventPipe a)
  refine ⟨d', hstep, hsound, ?_⟩
  have hslot : (abs d).slot a = none := abs_slot_none_iff.mpr hfree
  rw [Tracks.eq_def, hmove.eq_step]
  simp [Router.step, hslot, Router.opened, getEventPipe_future]

/-- **A pipe reports what the operations on its ActionID make of it**, whatever was before and
whatever else goes on. -/
theorem pipe_outcome {pre : List Op} {a : Bytes} {d : EventDispatcher}
    (hpre : runOps pre = .ok d) (hfree : a ∉ d.promiseMap) (post : List Op) :
    ∃ d', runOps (pre ++ .getEventPipe a :: post) = .ok d'
      ∧ d'.shared[(d.getEventPipe a).2]?
        = some (progressOf (post.filterMap (Op.onPipe a))).outcome := by
  obtain ⟨d1, hstep, hsound, htracks⟩ := tracks_opened hfree (runOps_sound hpre)
  obtain ⟨d2, hrun, _⟩ := run_sound hsound post
  obtain ⟨hsound2, htracks2⟩ := run_tracks hsound htracks hrun
  exact ⟨d2, runOps_append hpre (by rw [Run.run_cons hstep, hrun]), htracks2.shared hsound2.inv⟩

/-! ## A response made of messages only -/

theorem foldl_done (outcome : Shared) (ops : List PipeOp) :
    ops.foldl Progress.step (.done outcome) = .done outcome := by
  induction ops with
  | nil => rfl
  | cons op ops ih => rw [List.foldl_cons, done_step, ih]

/-- An exception in a future was stored there. -/
theorem foldl_exception {ops : List PipeOp} {p : Progress} {err : Exn}
    (h : (ops.foldl Progress.step p).outcome = .exception err) :
    p.outcome = .exception err ∨ .close (.exception err) ∈ ops := by
  induction ops generalizing p with
  | nil => exact Or.inl h
  | cons op ops ih =>
      rcases ih h with hstep | hmem
      · cases op with
        | message m =>
            refine Or.inl ?_
            cases p with
            | done outcome => exact hstep
            | waiting =>
                simp only [Progress.step, Progress.receive] at hstep
                split at hstep
                · cases hstep
                · split at hstep <;> cases hstep
            | building l =>
                simp only [Progress.step, Progress.receive] at hstep
                split at hstep <;> cases hstep
        | close outcome =>
            cases p with
            | done outcome' => exact Or.inl hstep
            | waiting =>
                cases hstep
                exact Or.inr List.mem_cons_self
            | building l =>
                cases hstep
                exact Or.inr List.mem_cons_self
      · exact Or.inr (List.mem_cons_of_mem op hmem)

theorem foldl_building (l : EventList) {ms : List Event} (h : ∀ m ∈ ms, m.endsList = false) :
    (ms.map .message).foldl Progress.step (.building l)
      = .building { l with events := l.events ++ ms } := by
  induction ms generalizing l with
  | nil => simp
  | cons m ms ih =>
      have hm : m.endsList = false := h m List.mem_cons_self
      have hstep : Progress.step (.building l) (.message m)
          = .building { l with events := l.events ++ [m] } := by
        rw [Progress.step, Progress.receive, if_neg (by simp [hm])]
      rw [List.map_cons, List.foldl_cons, hstep,
        ih _ fun x hx => h x (List.mem_cons_of_mem m hx)]
      simp

theorem progressOf_event {m : Event} (h : m.startsList = false) (ms : List Event) :
    progressOf ((m :: ms).map .message) = .done (.value (some (.event m))) := by
  have hstep : Progress.step .waiting (.message m) = .done (.value (some (.event m))) := by
    rw [Progress.step, Progress.receive, if_pos (by simp [h])]
  unfold progressOf
  rw [List.map_cons, List.foldl_cons, hstep, foldl_done]

theorem progressOf_failed {m : Event} (h : m.startsList = true) (hacc : m.accepted = false)
    (ms : List Event) :
    progressOf ((m :: ms).map .message) = .done (.value (some (.eventList { head := m }))) := by
  have hstep : Progress.step .waiting (.message m)
      = .done (.value (some (.eventList { head := m }))) := by
    rw [Progress.step, Progress.receive, if_neg (by simp [h]), if_neg (by simp [hacc])]
  unfold progressOf
  rw [List.map_cons, List.foldl_cons, hstep, foldl_done]

theorem progressOf_building {m : Event} (h : m.startsList = true) (hacc : m.accepted = true)
    {ms : List Event} (hms : ∀ x ∈ ms, x.endsList = false) :
    progressOf ((m :: ms).map .message) = .building { head := m, events := ms } := by
  have hstep : Progress.step .waiting (.message m) = .building { head := m } := by
    rw [Progress.step, Progress.receive, if_neg (by simp [h]), if_pos hacc]
  unfold progressOf
  rw [List.map_cons, List.foldl_cons, hstep, foldl_building _ hms, List.nil_append]

theorem progressOf_complete {m : Event} (h : m.startsList = true) (hacc : m.accepted = true)
    {ms : List Event} (hms : ∀ x ∈ ms, x.endsList = false) {t : Event} (ht : t.endsList = true)
    (rest : List Event) :
    progressOf ((m :: (ms ++ t :: rest)).map .message)
      = .done (.value (some (.eventList { head := m, tail := some t, events := ms }))) := by
  have hstep : Progress.step (.building { head := m, events := ms }) (.message t)
      = .done (.value (some (.eventList { head := m, tail := some t, events := ms }))) := by
    rw [Progress.step, Progress.receive, if_pos ht]
  have hbuild := progressOf_building h hacc hms
  unfold progressOf at hbuild ⊢
  rw [← List.cons_append, List.map_append, List.foldl_append, hbuild, List.map_cons,
    List.foldl_cons, hstep, foldl_done]

theorem progressOf_snoc (ops : List PipeOp) (op : PipeOp) :
    progressOf (ops ++ [op]) = (progressOf ops).step op := by
  unfold progressOf
  rw [List.foldl_append]
  rfl

/-- Messages of one ActionID have either all been gathered, and completed nothing on the way, or
their first ones are the response. -/
theorem gathered_or_completes {a : Bytes} {ms : List Event}
    (h : ∀ m ∈ ms, m.actionId = some a) :
    (Unfinished a (progressOf (ms.map .message)) ∧ (progressOf (ms.map .message)).gathered = ms
        ∧ ∀ k, k ≤ ms.length → (progressOf ((ms.take k).map .message)).outcome = .pending)
      ∨ ∃ reaction, progressOf (ms.map .message) = .done (.value (some reaction))
        ∧ Completes ms reaction := by
  induction ms using List.reverseRecOn with
  | nil =>
      refine Or.inl ⟨trivial, rfl, ?_⟩
      intro k _
      rw [List.take_nil]
      rfl
  | append_singleton ms m ih =>
      have hm : m.actionId = some a := h m (by simp)
      rw [List.map_append, List.map_singleton, progressOf_snoc]
      rcases ih fun x hx => h x (List.mem_append_left _ hx) with
        ⟨hun, hgathered, hopen⟩ | ⟨reaction, hdone, hcomp⟩
      · rcases gathered_receive hun hm with ⟨reaction, hr, hms⟩ | ⟨hun', hms⟩
        · rw [hgathered] at hms
          refine Or.inr ⟨reaction, hr, ⟨by rw [hms], ?_, ?_⟩⟩
          · rw [hms, List.map_append, List.map_singleton, progressOf_snoc]
            exact hr
          · intro k hk
            rw [hms, List.length_append, List.length_singleton] at hk
            rw [hms, List.take_append_of_le_length (by omega)]
            exact hopen k (by omega)
        · rw [hgathered] at hms
          refine Or.inl ⟨hun', hms, ?_⟩
          intro k hk
          rw [List.length_append, List.length_singleton] at hk
          by_cases hlast : k = ms.length + 1
          · rw [hlast, List.take_of_length_le (by simp), List.map_append, List.map_singleton,
              progressOf_snoc]
            cases hp : (progressOf (ms.map .message)).step (.message m) with
            | done outcome =>
                rw [Progress.step] at hp
                rw [hp] at hun'
                exact hun'.elim
            | waiting => rfl
            | building l => rfl
          · rw [List.take_append_of_le_length (by omega)]
            exact hopen k (by omega)
      · refine Or.inr ⟨reaction, by rw [hdone, done_step], ?_⟩
        exact ⟨hcomp.first.trans (List.prefix_append ms [m]), hcomp.complete, hcomp.least⟩

/--
**Response assembly is correct per ActionID and independent of all other traffic.**

Register `a` while it is not registered, then run any operations. The future reports
a function of the operations that named `a` alone. When those are messages
`m :: ms`, it reports the event `m` if that starts no list; a list of `m` alone if it
starts one without being accepted; and otherwise the list that the first message to
end it completes, nothing before that message arrives.
-/
theorem response_assembly {pre : List Op} {a : Bytes} {d : EventDispatcher}
    (hpre : runOps pre = .ok d) (hfree : a ∉ d.promiseMap) (post : List Op) :
    ∃ d' outcome, runOps (pre ++ .getEventPipe a :: post) = .ok d'
      ∧ d'.shared[(d.getEventPipe a).2]? = some outcome
      ∧ outcome = (progressOf (post.filterMap (Op.onPipe a))).outcome
      ∧ (post.filterMap (Op.onPipe a) = [] → outcome = .pending)
      ∧ ∀ m ms, post.filterMap (Op.onPipe a) = (m :: ms).map .message →
        (m.startsList = false → outcome = .value (some (.event m)))
        ∧ (m.startsList = true → m.accepted = false →
            outcome = .value (some (.eventList { head := m })))
        ∧ (m.startsList = true → m.accepted = true →
            ((∀ x ∈ ms, x.endsList = false) → outcome = .pending)
            ∧ ∀ members t rest, ms = members ++ t :: rest →
                (∀ x ∈ members, x.endsList = false) → t.endsList = true →
                outcome = .value (some (.eventList
                  { head := m, tail := some t, events := members }))) := by
  obtain ⟨d', hrun, hshared⟩ := pipe_outcome hpre hfree post
  refine ⟨d', _, hrun, hshared, rfl, ?_, ?_⟩
  · intro hnil
    rw [hnil]
    rfl
  · intro m ms hms
    rw [hms]
    refine ⟨fun h => ?_, fun h hacc => ?_, fun h hacc => ⟨fun hopen => ?_, ?_⟩⟩
    · rw [progressOf_event h]
      rfl
    · rw [progressOf_failed h hacc]
      rfl
    · rw [progressOf_building h hacc hopen]
      rfl
    · intro members t rest heq hopen ht
      subst heq
      rw [progressOf_complete h hacc hopen ht]
      rfl

/-! ## A list as it goes over the wire -/

namespace Sample

/-- The head of a list that answers the action `7`. -/
def head : Event :=
  KeyValDict.ofFields [("Response", "Success"), ("ActionID", "7"), ("EventList", "start")]

def member : Event := KeyValDict.ofFields [("Event", "Status"), ("ActionID", "7")]

def tail : Event :=
  KeyValDict.ofFields
    [("Event", "StatusComplete"), ("ActionID", "7"), ("EventList", "Complete")]

/-- A notification: it answers nothing. -/
def hangup : Event := KeyValDict.ofFields [("Event", "Hangup")]

/-- An answer to the action `7` that is not a list. -/
def pong : Event := KeyValDict.ofFields [("Response", "Success"), ("ActionID", "7")]

end Sample

theorem response_assembly_list :
    ∃ d', runOps [.getEventPipe (ascii "7"), .dispatchEvent Sample.head,
        .dispatchEvent Sample.hangup, .dispatchEvent Sample.member,
        .dispatchEvent Sample.tail] = .ok d'
      ∧ d'.shared[0]? = some (.value (some (.eventList
        { head := Sample.head, tail := some Sample.tail, events := [Sample.member] }))) := by
  obtain ⟨d', outcome, hrun, hfuture, _, _, hlist⟩ :=
    @response_assembly [] (ascii "7") _ rfl (by simp)
      [.dispatchEvent Sample.head, .dispatchEvent Sample.hangup, .dispatchEvent Sample.member,
        .dispatchEvent Sample.tail]
  obtain ⟨_, hfinished⟩ := (hlist Sample.head [Sample.member, Sample.tail] rfl).2.2 rfl rfl
  have houtcome := hfinished [Sample.member] Sample.tail [] rfl
    (by simp only [List.mem_singleton, forall_eq]; rfl) rfl
  refine ⟨d', hrun, ?_⟩
  rw [← houtcome]
  exact hfuture

end CppAmi.Proof
