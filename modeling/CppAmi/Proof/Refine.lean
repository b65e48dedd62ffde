import CppAmi.Spec.Router

/-!
# The dispatcher refines the router

`abs` reads the slots off the two maps. In a well-formed dispatcher every operation
returns, keeps the dispatcher well formed, and does to the slots what the router
does (`apply_refines`); so a run of the dispatcher never fails and is a run of the
router (`runOps_refines`).

Well-formedness is what the separate statements on the two maps have to maintain
together: a list in progress belongs to an open pipe, an open pipe is not satisfied
yet, and no two ActionIDs share a pipe.
-/

namespace CppAmi.Proof

open CppAmi EventDispatcher

/-! ## Well-formedness and abstraction -/

structure WF (d : EventDispatcher) : Prop where
  /-- An open pipe is not satisfied yet. -/
  pending : ∀ a f, d.promiseMap.lookup a = some f → d.shared[f]? = some .pending
  /-- No two ActionIDs share a pipe. -/
  inj : ∀ a b f, d.promiseMap.lookup a = some f → d.promiseMap.lookup b = some f → a = b
  /-- A list in progress is there, and belongs to an open pipe. -/
  owned : ∀ a e, d.eventMap.lookup a = some e →
    (∃ f, d.promiseMap.lookup a = some f) ∧ ∃ l, e = some l

/-- How far the response to `a` has come, as `event_map_` has it. -/
def absProgress (d : EventDispatcher) (a : Bytes) : Progress :=
  match d.eventMap.lookup a with
  | some (some l) => .building l
  | _ => .waiting

/-- The slots behind the two maps. -/
def abs (d : EventDispatcher) : Router where
  slot a := (d.promiseMap.lookup a).map fun f => (f, absProgress d a)
  shared := d.shared
  notified := d.notified

@[simp] theorem abs_shared (d : EventDispatcher) : (abs d).shared = d.shared := rfl

@[simp] theorem abs_notified (d : EventDispatcher) : (abs d).notified = d.notified := rfl

theorem abs_slot_none {d : EventDispatcher} {a : Bytes} :
    (abs d).slot a = none ↔ d.promiseMap.lookup a = none := by
  simp [abs]

theorem abs_slot_none_iff {d : EventDispatcher} {a : Bytes} :
    (abs d).slot a = none ↔ a ∉ d.promiseMap := by
  rw [abs_slot_none, AList.lookup_eq_none]

theorem abs_slot_some {d : EventDispatcher} {a : Bytes} {f : Nat}
    (h : d.promiseMap.lookup a = some f) : (abs d).slot a = some (f, absProgress d a) := by
  simp [abs, h]

theorem wf_init : WF {} where
  pending := by
    intro a f h
    exact absurd h (by simp)
  inj := by
    intro a b f h _
    exact absurd h (by simp)
  owned := by
    intro a e h
    exact absurd h (by simp)

/-- A list in progress belongs to an open pipe. -/
theorem eventMap_none {d : EventDispatcher} (h : WF d) {a : Bytes}
    (ha : d.promiseMap.lookup a = none) : d.eventMap.lookup a = none := by
  cases he : d.eventMap.lookup a with
  | none => rfl
  | some e =>
      obtain ⟨⟨f, hf⟩, _⟩ := h.owned a e he
      rw [ha] at hf
      cases hf

/-! ## The three ways the maps change -/

/-- Opening a pipe for an ActionID that has none. -/
theorem open_refines {d : EventDispatcher} (h : WF d) {a : Bytes}
    (ha : d.promiseMap.lookup a = none) :
    WF { d with promiseMap := d.promiseMap.insert a d.shared.length,
                shared := d.shared ++ [Shared.pending] }
      ∧ abs { d with promiseMap := d.promiseMap.insert a d.shared.length,
                     shared := d.shared ++ [Shared.pending] } = (abs d).opened a := by
  have hlt : ∀ b f, d.promiseMap.lookup b = some f → f < d.shared.length := by
    intro b f hb
    exact (List.getElem?_eq_some_iff.mp (h.pending b f hb)).1
  have hev := eventMap_none h ha
  refine ⟨⟨?_, ?_, ?_⟩, ?_⟩
  · intro b f hb
    simp only [lookup_insert_ite] at hb
    split at hb
    · cases hb
      simp
    · rw [List.getElem?_append_left (hlt b f hb)]
      exact h.pending b f hb
  · intro b c f hb hc
    simp only [lookup_insert_ite] at hb hc
    split at hb <;> split at hc
    · simp_all
    · cases hb
      exact absurd (hlt c _ hc) (Nat.lt_irrefl _)
    · cases hc
      exact absurd (hlt b _ hb) (Nat.lt_irrefl _)
    · exact h.inj b c f hb hc
  · intro b e hb
    obtain ⟨⟨f, hf⟩, hl⟩ := h.owned b e hb
    refine ⟨⟨f, ?_⟩, hl⟩
    rw [lookup_insert_ite, if_neg, hf]
    intro heq
    subst heq
    rw [ha] at hf
    cases hf
  · simp only [abs, Router.opened, Router.mk.injEq, and_self, and_true]
    funext b
    by_cases hb : b = a
    · subst hb
      simp [absProgress, hev]
    · simp [hb, absProgress]

/-- Closing the pipe of `a` with an outcome. -/
theorem close_refines {d d' : EventDispatcher} (h : WF d) {a : Bytes} {f : Nat} {outcome : Shared}
    (ha : d.promiseMap.lookup a = some f)
    (hp : ∀ b, d'.promiseMap.lookup b = if b = a then none else d.promiseMap.lookup b)
    (he : ∀ b, d'.eventMap.lookup b = if b = a then none else d.eventMap.lookup b)
    (hs : d'.shared = d.shared.set f outcome) (hn : d'.notified = d.notified) :
    WF d' ∧ abs d' = (abs d).put a f (.done outcome) := by
  refine ⟨⟨?_, ?_, ?_⟩, ?_⟩
  · intro b g hb
    rw [hp] at hb
    split at hb
    · cases hb
    · rename_i hne
      have hfg : f ≠ g := fun heq => hne (h.inj b a g hb (heq ▸ ha))
      rw [hs, List.getElem?_set_ne hfg]
      exact h.pending b g hb
  · intro b c g hb hc
    rw [hp] at hb hc
    split at hb <;> split at hc
    · cases hb
    · cases hb
    · cases hc
    · exact h.inj b c g hb hc
  · intro b e hb
    rw [he] at hb
    split at hb
    · cases hb
    · rename_i hne
      rw [hp, if_neg hne]
      exact h.owned b e hb
  · simp only [abs, Router.put, hs, hn, Router.mk.injEq, and_self, and_true]
    funext b
    by_cases hb : b = a
    · simp [hp, hb]
    · simp [hp, he, hb, absProgress]

/-- Recording the list in progress of `a`. -/
theorem build_refines {d d' : EventDispatcher} (h : WF d) {a : Bytes} {f : Nat} {l : EventList}
    (ha : d.promiseMap.lookup a = some f) (hp : d'.promiseMap = d.promiseMap)
    (he : ∀ b, d'.eventMap.lookup b = if b = a then some (some l) else d.eventMap.lookup b)
    (hs : d'.shared = d.shared) (hn : d'.notified = d.notified) :
    WF d' ∧ abs d' = (abs d).put a f (.building l) := by
  refine ⟨⟨?_, ?_, ?_⟩, ?_⟩
  · intro b g hb
    rw [hp] at hb
    rw [hs]
    exact h.pending b g hb
  · intro b c g hb hc
    rw [hp] at hb hc
    exact h.inj b c g hb hc
  · intro b e hb
    rw [he] at hb
    rw [hp]
    split at hb
    · rename_i heq
      cases hb
      exact ⟨⟨f, heq ▸ ha⟩, l, rfl⟩
    · exact h.owned b e hb
  · simp only [abs, Router.put, hp, hs, hn, Router.mk.injEq, and_self, and_true]
    funext b
    by_cases hb : b = a
    · subst hb
      simp [he, ha, absProgress]
    · simp [he, hb, absProgress]

/-! ## Every operation -/

theorem satisfy_pending {d : EventDispatcher} {f : Nat} (hf : d.shared[f]? = some .pending)
    (outcome : Shared) :
    d.satisfy f outcome = .ok { d with shared := d.shared.set f outcome } := by
  unfold satisfy
  rw [hf]

/-- Destroying a satisfied promise breaks nothing. -/
theorem erasePromise_satisfied {d : EventDispatcher} {a : Bytes} {f : Nat} {outcome : Shared}
    (ha : d.promiseMap.lookup a = some f) (hf : d.shared[f]? = some outcome)
    (ho : outcome ≠ .pending) :
    d.erasePromise a = { d with promiseMap := d.promiseMap.erase a } := by
  unfold erasePromise
  rw [ha]
  simp only [destroyPromise, hf]
  split
  · rename_i hpend
    exact absurd (Option.some.inj hpend) ho
  · rfl

theorem getElem?_set_pending {s : List Shared} {f : Nat} (hf : s[f]? = some .pending)
    (outcome : Shared) : (s.set f outcome)[f]? = some outcome := by
  rw [List.getElem?_set_self]
  exact (List.getElem?_eq_some_iff.mp hf).1

theorem getEventPipe_refines {d : EventDispatcher} (h : WF d) (a : Bytes) :
    WF (d.getEventPipe a).1 ∧ Router.Move (abs d) (.getEventPipe a) (abs (d.getEventPipe a).1) := by
  cases ha : d.promiseMap.lookup a with
  | none =>
      have hmem : a ∉ d.promiseMap := AList.lookup_eq_none.mp ha
      obtain ⟨hwf, habs⟩ := open_refines h ha
      have hopen : (d.getEventPipe a).1
          = { d with promiseMap := d.promiseMap.insert a d.shared.length,
                     shared := d.shared ++ [Shared.pending] } := by
        simp [getEventPipe, hmem, emplace_of_lookup ha]
      rw [hopen, habs]
      exact ⟨hwf, .opened (abs_slot_none.mpr ha)⟩
  | some f =>
      have hmem : a ∈ d.promiseMap := AList.lookup_isSome.mp (by rw [ha]; rfl)
      have hbroken : (d.getEventPipe a).1
          = { d with shared := d.shared ++ [Shared.exception .brokenPromise] } := by
        simp [getEventPipe, hmem, destroyPromise]
      rw [hbroken]
      refine ⟨⟨?_, h.inj, h.owned⟩, .refused (abs_slot_some ha)⟩
      intro b g hb
      have hg := h.pending b g hb
      rw [List.getElem?_append_left (List.getElem?_eq_some_iff.mp hg).1]
      exact hg

theorem dispatchResponse_closed {d : EventDispatcher} {a : Bytes}
    (ha : d.promiseMap.lookup a = none) (m : Event) :
    d.dispatchResponse a m = .ok (false, m, d) := by
  unfold dispatchResponse
  rw [ha]

theorem isSuccess_eq (m : Event) : ({ head := m } : EventList).isSuccess = m.accepted := by
  unfold EventList.isSuccess KeyValDict.accepted Reaction.isSuccess
  cases m.getValue (ascii "Response") with
  | none => simp
  | some response => simp [beq_eq_decide]

theorem addEvent_eq (l : EventList) (m : Event) :
    l.addEvent m
      = if m.endsList then (true, { l with tail := some m })
        else (false, { l with events := l.events ++ [m] }) := by
  unfold EventList.addEvent KeyValDict.endsList EventList.isListComplete
  cases m.getValue (ascii "EventList") with
  | none => simp
  | some val => simp

/-! ### The five branches of `dispatch_event`, for a message whose pipe is open -/

section Branches

variable {d : EventDispatcher} {a : Bytes} {f : Nat} {m : Event} {l : EventList}

/-- A pipe satisfied and then erased: the two statements that end every finished response. -/
theorem satisfy_erase (ha : d.promiseMap.lookup a = some f)
    (hf : d.shared[f]? = some .pending) (outcome : Shared) (ho : outcome ≠ .pending) :
    ∃ d', d.satisfy f outcome = .ok d'
      ∧ d'.erasePromise a
        = { d with promiseMap := d.promiseMap.erase a, shared := d.shared.set f outcome } :=
  ⟨_, satisfy_pending hf outcome,
    erasePromise_satisfied (d := { d with shared := d.shared.set f outcome }) ha
      (getElem?_set_pending hf outcome) ho⟩

theorem dispatchResponse_event (ha : d.promiseMap.lookup a = some f)
    (hf : d.shared[f]? = some .pending) (he : d.eventMap.lookup a = none)
    (hstart : m.startsList = false) :
    d.dispatchResponse a m = .ok (true, .moved,
      { d with promiseMap := d.promiseMap.erase a,
               shared := d.shared.set f (.value (some (.event m))) }) := by
  obtain ⟨d', hset, herase⟩ := satisfy_erase ha hf (.value (some (.event m))) (by simp)
  unfold KeyValDict.startsList at hstart
  unfold dispatchResponse
  rw [ha]
  simp [he, hstart, setValue, hset, herase, bind, Except.bind]

theorem dispatchResponse_head (ha : d.promiseMap.lookup a = some f)
    (he : d.eventMap.lookup a = none) (hstart : m.startsList = true)
    (hok : m.accepted = true) :
    d.dispatchResponse a m = .ok (true, .moved,
      { d with eventMap := d.eventMap.insert a (some { head := m }) }) := by
  unfold KeyValDict.startsList at hstart
  unfold dispatchResponse
  rw [ha]
  simp [he, hstart, isSuccess_eq, hok, emplace_of_lookup he]

theorem dispatchResponse_failed (ha : d.promiseMap.lookup a = some f)
    (hf : d.shared[f]? = some .pending) (he : d.eventMap.lookup a = none)
    (hstart : m.startsList = true) (hok : m.accepted = false) :
    d.dispatchResponse a m = .ok (true, .moved,
      { d with promiseMap := d.promiseMap.erase a,
               shared := d.shared.set f (.value (some (.eventList { head := m }))) }) := by
  obtain ⟨d', hset, herase⟩ := satisfy_erase ha hf
    (.value (some (.eventList { head := m }))) (by simp)
  unfold KeyValDict.startsList at hstart
  unfold dispatchResponse
  rw [ha]
  simp [he, hstart, isSuccess_eq, hok, setValue, hset, herase, bind, Except.bind]

theorem dispatchResponse_tail (ha : d.promiseMap.lookup a = some f)
    (hf : d.shared[f]? = some .pending) (he : d.eventMap.lookup a = some (some l))
    (hend : m.endsList = true) :
    d.dispatchResponse a m = .ok (true, .moved,
      { d with promiseMap := d.promiseMap.erase a,
               eventMap := (d.eventMap.insert a none).erase a,
               shared := d.shared.set f
                 (.value (some (.eventList { l with tail := some m }))) }) := by
  obtain ⟨d', hset, herase⟩ := satisfy_erase
    (d := { d with eventMap := d.eventMap.insert a none }) ha hf
    (.value (some (.eventList { l with tail := some m }))) (by simp)
  unfold dispatchResponse
  rw [ha]
  simp [he, addEvent_eq, hend, setValue, hset, herase, bind, Except.bind]

theorem dispatchResponse_member (ha : d.promiseMap.lookup a = some f)
    (he : d.eventMap.lookup a = some (some l)) (hend : m.endsList = false) :
    d.dispatchResponse a m = .ok (true, .moved,
      { d with eventMap := d.eventMap.insert a (some { l with events := l.events ++ [m] }) }) := by
  unfold dispatchResponse
  rw [ha]
  simp [he, addEvent_eq, hend]

/-- A message for an open pipe is taken, and moves the response one step on. -/
theorem dispatchResponse_open (h : WF d) (ha : d.promiseMap.lookup a = some f) (m : Event) :
    ∃ d', d.dispatchResponse a m = .ok (true, .moved, d') ∧ WF d'
      ∧ abs d' = (abs d).put a f ((absProgress d a).receive m) := by
  have hpend := h.pending a f ha
  cases he : d.eventMap.lookup a with
  | none =>
      have hkeep : ∀ b, d.eventMap.lookup b = if b = a then none else d.eventMap.lookup b := by
        intro b
        split
        · rename_i heq
          rw [heq, he]
        · rfl
      rw [show absProgress d a = .waiting by simp [absProgress, he]]
      cases hstart : m.startsList with
      | false =>
          refine ⟨_, dispatchResponse_event ha hpend he hstart, ?_⟩
          rw [Progress.receive, if_pos (by simp [hstart])]
          exact close_refines h ha (lookup_erase_ite _ _) hkeep rfl rfl
      | true =>
          cases hok : m.accepted with
          | true =>
              refine ⟨_, dispatchResponse_head ha he hstart hok, ?_⟩
              rw [Progress.receive, if_neg (by simp [hstart]), if_pos hok]
              exact build_refines h ha rfl (fun b => lookup_insert_ite _ _ _ _) rfl rfl
          | false =>
              refine ⟨_, dispatchResponse_failed ha hpend he hstart hok, ?_⟩
              rw [Progress.receive, if_neg (by simp [hstart]), if_neg (by simp [hok])]
              exact close_refines h ha (lookup_erase_ite _ _) hkeep rfl rfl
  | some e =>
      obtain ⟨_, l, rfl⟩ := h.owned a e he
      rw [show absProgress d a = .building l by simp [absProgress, he]]
      cases hend : m.endsList with
      | true =>
          refine ⟨_, dispatchResponse_tail ha hpend he hend, ?_⟩
          rw [Progress.receive, if_pos hend]
          refine close_refines h ha (lookup_erase_ite _ _) ?_ rfl rfl
          intro b
          rw [lookup_erase_ite]
          split
          · rfl
          · rename_i hne
            rw [lookup_insert_ite, if_neg hne]
      | false =>
          refine ⟨_, dispatchResponse_member ha he hend, ?_⟩
          rw [Progress.receive, if_neg (by simp [hend])]
          exact build_refines h ha rfl (fun b => lookup_insert_ite _ _ _ _) rfl rfl

end Branches

/-! ### The operations -/

theorem notify_refines {d : EventDispatcher} (h : WF d) (m : Event) :
    WF (d.notify m) ∧ abs (d.notify m) = (abs d).notify m :=
  ⟨⟨h.pending, h.inj, h.owned⟩, rfl⟩

/-- A message for an ActionID that is not registered goes to the callback. -/
theorem dispatchDict_unregistered {d : EventDispatcher} {m : Event} {a : Bytes}
    (hm : m.actionId = some a) (ha : d.promiseMap.lookup a = none) :
    d.dispatchDict m = .ok (d.notify m) := by
  unfold KeyValDict.actionId at hm
  simp [dispatchDict, hm, dispatchResponse_closed ha, bind, Except.bind]

theorem dispatchDict_refines {d : EventDispatcher} (h : WF d) (m : Event) :
    ∃ d', d.dispatchDict m = .ok d' ∧ WF d'
      ∧ Router.Move (abs d) (.dispatchEvent m) (abs d') := by
  obtain ⟨hnwf, hnabs⟩ := notify_refines h m
  cases hm : m.getValue (ascii "ActionID") with
  | none =>
      refine ⟨d.notify m, by rw [dispatchDict, hm], hnwf, ?_⟩
      rw [hnabs]
      exact .notified fun a ha => by rw [KeyValDict.actionId, hm] at ha; cases ha
  | some a =>
      cases ha : d.promiseMap.lookup a with
      | none =>
          refine ⟨d.notify m, dispatchDict_unregistered hm ha, hnwf, ?_⟩
          rw [hnabs]
          refine .notified ?_
          intro b hb
          unfold KeyValDict.actionId at hb
          rw [hm] at hb
          cases hb
          exact abs_slot_none.mpr ha
      | some f =>
          obtain ⟨d', hrun, hwf, habs⟩ := dispatchResponse_open h ha m
          refine ⟨d', by simp [dispatchDict, hm, hrun, bind, Except.bind], hwf, ?_⟩
          rw [habs]
          exact .received hm (abs_slot_some ha)

/-- `set_exception_on_pipe` and `set_null_on_pipe`. -/
theorem closePipe_refines {d : EventDispatcher} (h : WF d) {a : Bytes} {outcome : Shared}
    (ho : outcome ≠ .pending) {op : Op} (hop : op.closes = some (a, outcome)) :
    ∃ d', d.closePipe a outcome = .ok d' ∧ WF d' ∧ Router.Move (abs d) op (abs d') := by
  cases ha : d.promiseMap.lookup a with
  | none =>
      -- nothing is open, and then nothing is in progress either
      have hkeep : ∀ b, (d.eventMap.erase a).lookup b = d.eventMap.lookup b := by
        intro b
        rw [lookup_erase_ite]
        split
        · rename_i heq
          exact (eventMap_none h (by rw [heq, ha])).symm
        · rfl
      refine ⟨{ d with eventMap := d.eventMap.erase a }, by simp [closePipe, ha],
        ⟨h.pending, h.inj, ?_⟩, ?_⟩
      · intro b e hb
        exact h.owned b e (by rwa [hkeep] at hb)
      · have habs : abs { d with eventMap := d.eventMap.erase a } = abs d := by
          simp only [abs, absProgress, hkeep]
        rw [habs]
        exact .idle hop (abs_slot_none.mpr ha)
  | some f =>
      obtain ⟨d', hset, herase⟩ := satisfy_erase ha (h.pending a f ha) outcome ho
      have hclose : (absProgress d a).close outcome = .done outcome := by
        unfold absProgress
        split <;> rfl
      let closed : EventDispatcher :=
        { d with promiseMap := d.promiseMap.erase a, eventMap := d.eventMap.erase a,
                 shared := d.shared.set f outcome }
      obtain ⟨hwf, habs⟩ : WF closed ∧ abs closed = (abs d).put a f (.done outcome) :=
        close_refines h ha (lookup_erase_ite _ _) (lookup_erase_ite _ _) rfl rfl
      refine ⟨closed, by simp [closed, closePipe, ha, hset, herase, bind, Except.bind], hwf, ?_⟩
      rw [habs, ← hclose]
      exact .closed hop (abs_slot_some ha)

/-- **Every operation returns and does to the slots what the router does.** -/
theorem apply_refines {d : EventDispatcher} (h : WF d) (op : Op) :
    ∃ d', d.apply op = .ok d' ∧ WF d' ∧ Router.Move (abs d) op (abs d') := by
  cases op with
  | getEventPipe a => exact ⟨_, rfl, getEventPipe_refines h a⟩
  | dispatchEvent m => exact dispatchDict_refines h m
  | setExceptionOnPipe a err => exact closePipe_refines h (by simp) rfl
  | setNullOnPipe a => exact closePipe_refines h (by simp) rfl

/-- **A run of the dispatcher never fails, and is a run of the router.** -/
theorem run_refines {d : EventDispatcher} (h : WF d) (ops : List Op) :
    ∃ d', Run.run apply d ops = .ok d' ∧ WF d' ∧ abs d' = ops.foldl Router.step (abs d) := by
  induction ops generalizing d with
  | nil => exact ⟨d, rfl, h, rfl⟩
  | cons op ops ih =>
      obtain ⟨d', hstep, hwf, hmove⟩ := apply_refines h op
      obtain ⟨d'', hrun, hwf', habs'⟩ := ih hwf
      exact ⟨d'', by rw [Run.run_cons hstep, hrun], hwf',
        by rw [habs', hmove.eq_step, List.foldl_cons]⟩

end CppAmi.Proof
