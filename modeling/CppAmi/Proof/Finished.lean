import CppAmi.Proof.Slots

/-!
# The maps between two operations

What the router keeps says at once that the two maps are consistent and that no
operation meets a promise that was satisfied before (`maps_consistent`).

A list that is finished should not be in the maps any more. The code looks for the end
of a list in every message but the first, for which it looks at the `Response` only; so
a first message that is accepted and ends the list leaves a list that waits for an end
that came already (`nothing_finished_iff`).
-/

namespace CppAmi.Proof

open CppAmi EventDispatcher

theorem isSuccess_eq_head (l : EventList) : l.isSuccess = l.head.accepted :=
  isSuccess_eq l.head

theorem listMessages_open {l : EventList} (ht : l.tail = none) :
    listMessages l = l.head :: l.events := by
  simp [listMessages, Reaction.messages, ht]

/-- A list in progress is what the slot of its ActionID has come to. -/
theorem slot_of_list {d : EventDispatcher} (h : WF d) {a : Bytes} {l : EventList}
    (ha : d.eventMap.lookup a = some (some l)) :
    ∃ f, (abs d).slot a = some (f, .building l) := by
  obtain ⟨⟨f, hf⟩, _⟩ := h.owned a _ ha
  refine ⟨f, ?_⟩
  rw [abs_slot_some hf, absProgress, ha]

theorem consistent_of_sound {d : EventDispatcher} (h : Sound d) : Consistent d where
  registered := by
    intro a ha
    obtain ⟨e, he⟩ := Option.isSome_iff_exists.mp (AList.lookup_isSome.mpr ha)
    obtain ⟨⟨f, hf⟩, _⟩ := h.wf.owned a e he
    exact AList.lookup_isSome.mp (by rw [hf]; rfl)
  lists := by
    intro a e he
    obtain ⟨_, l, rfl⟩ := h.wf.owned a e he
    obtain ⟨f, hslot⟩ := slot_of_list h.wf he
    obtain ⟨htail, hacc, hall⟩ := h.inv.unfinished a f _ hslot
    refine ⟨l, rfl, htail, by rw [isSuccess_eq_head, hacc], ?_⟩
    intro m hm
    exact hall m (by rwa [listMessages_open htail])
  pending := h.wf.pending

/--
**The two maps stay consistent.**

Every run returns, in a state in which every list in progress belongs to an open pipe,
is of its own ActionID, and is neither failed nor finished, and in which no promise has
been satisfied; and so every operation that comes next returns.
-/
theorem maps_consistent (ops : List Op) :
    ∃ d, runOps ops = .ok d ∧ Consistent d ∧ ∀ op, ∃ d', d.apply op = .ok d' := by
  obtain ⟨d, hrun, hsound⟩ := run_sound sound_init ops
  refine ⟨d, hrun, consistent_of_sound hsound, ?_⟩
  intro op
  obtain ⟨d', hstep, _⟩ := hsound.apply op
  exact ⟨d', hstep⟩

/-! ## Finished lists -/

/-- `NothingFinished`, seen in the slots. -/
def SlotsOpen (r : Router) : Prop :=
  ∀ a f l, r.slot a = some (f, .building l) → ∀ m ∈ listMessages l, m.endsList = false

theorem nothingFinished_iff {d : EventDispatcher} (h : WF d) :
    NothingFinished d ↔ SlotsOpen (abs d) := by
  constructor
  · intro hd a f l hs
    refine hd a l ?_
    unfold abs at hs
    obtain ⟨g, _, hg⟩ := Option.map_eq_some_iff.mp hs
    have hprog : absProgress d a = .building l := congrArg Prod.snd hg
    unfold absProgress at hprog
    split at hprog
    · rename_i l' hl'
      rw [hl', Progress.building.inj hprog]
    · cases hprog
  · intro hr a l ha
    obtain ⟨f, hslot⟩ := slot_of_list h ha
    exact hr a f l hslot

/-- Where the slot waits for a first message, no list is in progress. -/
theorem slot_waiting {d : EventDispatcher} (h : WF d) {a : Bytes} {f : Nat}
    (hs : (abs d).slot a = some (f, .waiting)) : a ∈ d.promiseMap ∧ a ∉ d.eventMap := by
  unfold abs at hs
  obtain ⟨g, hg, hprog⟩ := Option.map_eq_some_iff.mp hs
  refine ⟨AList.lookup_isSome.mp (by rw [hg]; rfl), ?_⟩
  rw [← AList.lookup_eq_none]
  cases he : d.eventMap.lookup a with
  | none => rfl
  | some e =>
      obtain ⟨_, l, rfl⟩ := h.owned a e he
      have hwait : absProgress d a = .waiting := congrArg Prod.snd hprog
      rw [absProgress, he] at hwait
      cases hwait

/-- **A message that ends a list finishes the response**, unless it comes first and is accepted. -/
theorem receive_ends {a : Bytes} {p : Progress} (hp : Unfinished a p) {m : Event}
    (hm : m.actionId = some a) (hend : m.endsList = true)
    (hhead : p = .waiting → m.startsList = true → m.accepted = true → m.endsList = false) :
    ∃ reaction, p.receive m = .done (.value (some reaction)) ∧ m ∈ reaction.messages := by
  rcases gathered_receive hp hm with ⟨reaction, hr, hmsgs⟩ | ⟨hun, _⟩
  · refine ⟨reaction, hr, ?_⟩
    rw [hmsgs]
    simp
  · exfalso
    cases p with
    | done outcome => exact hp
    | waiting =>
        rw [Progress.receive] at hun
        split at hun
        · exact hun
        · rename_i hstart
          split at hun
          · rename_i hacc
            have hopen := hhead rfl (by simpa using hstart) hacc
            rw [hend] at hopen
            cases hopen
          · exact hun
    | building l =>
        rw [Progress.receive, if_pos hend] at hun
        exact hun

/-- **The step lemma:** a message that is kept in a list does not end it. -/
theorem slotsOpen_move {r r' : Router} {op : Op} (hinv : RouterInv r) (hmove : Router.Move r op r')
    (hhead : ∀ m a f, op = .dispatchEvent m → m.actionId = some a →
      r.slot a = some (f, .waiting) → m.startsList = true → m.accepted = true →
      m.endsList = false)
    (h : SlotsOpen r) : SlotsOpen r' := by
  intro b g l hb
  rcases slot_cases hinv hmove hb with hold | ⟨_, _, hwait⟩ | ⟨m, p, rfl, hm, hs, hl, _⟩
  · exact h b g l hold
  · cases hwait
  · cases p with
    | done outcome => exact (hinv.unfinished b g _ hs).elim
    | waiting =>
        rw [Progress.receive] at hl
        split at hl
        · cases hl
        · rename_i hstart
          split at hl
          · rename_i hacc
            cases hl
            intro x hx
            rw [listMessages_head, List.mem_singleton] at hx
            rw [hx]
            exact hhead m b g rfl hm hs (by simpa using hstart) hacc
          · cases hl
    | building l₀ =>
        have hopen := (hinv.unfinished b g _ hs).1
        rw [Progress.receive] at hl
        split at hl
        · cases hl
        · rename_i hend
          cases hl
          intro x hx
          rw [listMessages_member hopen, List.mem_append, List.mem_singleton] at hx
          rcases hx with hx | hx
          · exact h b g l₀ hs x hx
          · rw [hx]
            simpa using hend

theorem headOpen_slots {d : EventDispatcher} (hwf : WF d) {op : Op} (h : HeadOpen d op) (m : Event)
    (a : Bytes) (f : Nat) (hop : op = .dispatchEvent m) (hm : m.actionId = some a)
    (hs : (abs d).slot a = some (f, .waiting)) (hstart : m.startsList = true)
    (hacc : m.accepted = true) : m.endsList = false := by
  subst hop
  obtain ⟨hp, he⟩ := slot_waiting hwf hs
  exact h a hm hp he hstart hacc

theorem endCloses_of_headOpen {d : EventDispatcher} (h : Sound d) {op : Op} (ho : HeadOpen d op) :
    EndCloses d op := by
  cases op with
  | dispatchEvent m =>
      intro hend a f hm hf d' hd'
      have hstep : d.apply (.dispatchEvent m) = .ok d' := hd'
      obtain ⟨hsound', hmove⟩ := h.step hstep
      have hs := abs_slot_some hf
      have hhead := headOpen_slots h.wf ho m a f rfl hm
      obtain ⟨reaction, hr, hmem⟩ := receive_ends (h.inv.unfinished a f _ hs) hm hend
        fun hwait => hhead (by rw [hs, hwait])
      have habs : abs d' = (abs d).put a f (.done (.value (some reaction))) := by
        rw [hmove.eq_step, ← hr]
        simp only [Router.step, hm, hs]
      have hslot : (abs d').slot a = none := by
        rw [habs, put_done_slot]
      refine ⟨abs_slot_none_iff.mp hslot, ?_, reaction, ?_, hmem⟩
      · rw [← AList.lookup_eq_none]
        exact eventMap_none hsound'.wf (abs_slot_none.mp hslot)
      · rw [← abs_shared, habs]
        exact List.getElem?_set_self (h.inv.lt hs)
  | _ => trivial

/--
**Nothing that is finished is kept waiting exactly when no accepted first message ends
its list.**

Along a run, every message that ends a response closes the pipe in its own step and no
list in the maps has a message that ends it, if and only if no message that is
dispatched starts an accepted list for an open pipe and ends it at once.
-/
theorem nothing_finished_waits_iff (ops : List Op) :
    (Run.Always EventDispatcher.apply NothingFinished {} ops
        ∧ Run.Along EventDispatcher.apply EndCloses {} ops)
      ↔ Run.Along EventDispatcher.apply HeadOpen {} ops := by
  constructor
  · intro h
    refine Run.along_of_always ?_ h.1
    intro d op d' _ hstep hopen
    cases op with
    | dispatchEvent m =>
        intro a hm hp he hstart hacc
        obtain ⟨f, hf⟩ := Option.isSome_iff_exists.mp (AList.lookup_isSome.mpr hp)
        have hrun := dispatchResponse_head hf (AList.lookup_eq_none.mpr he) hstart hacc
        have hd' : d' = { d with eventMap := d.eventMap.insert a (some { head := m }) } := by
          unfold KeyValDict.actionId at hm
          simp only [EventDispatcher.apply, dispatchDict, hm, hrun, bind, Except.bind] at hstep
          exact (Except.ok.inj hstep).symm
        refine hopen a { head := m } ?_ m (by simp [listMessages_head])
        rw [hd']
        exact AList.lookup_insert _
    | _ => trivial
  · intro h
    have hinit : Sound {} ∧ NothingFinished {} :=
      ⟨sound_init, fun a l ha => absurd ha (by simp)⟩
    have hstep : ∀ d op d', Sound d ∧ NothingFinished d → HeadOpen d op →
        d.apply op = .ok d' → Sound d' ∧ NothingFinished d' := by
      intro d op d' hinv ho hd'
      obtain ⟨hsound', hmove⟩ := hinv.1.step hd'
      refine ⟨hsound', (nothingFinished_iff hsound'.wf).mpr ?_⟩
      exact slotsOpen_move hinv.1.inv hmove (headOpen_slots hinv.1.wf ho)
        ((nothingFinished_iff hinv.1.wf).mp hinv.2)
    exact ⟨Run.always_of_along hstep (fun d hinv => hinv.2) hinit h,
      h.imp hstep (fun d op hinv => endCloses_of_headOpen hinv.1) hinit⟩

/-- A list that is cancelled by its first message. -/
def cancelledHead : Event :=
  KeyValDict.ofFields [("Response", "Success"), ("ActionID", "7"), ("EventList", "cancelled")]

/-- The first message of a response is accepted and ends the list: the list is kept in progress,
and the future stays pending. -/
theorem cancelled_head_waits :
    cancelledHead.endsList = true
      ∧ ∃ d, runOps [.getEventPipe (ascii "7"), .dispatchEvent cancelledHead] = .ok d
        ∧ d.eventMap.lookup (ascii "7") = some (some { head := cancelledHead })
        ∧ d.shared[0]? = some .pending
        ∧ ¬ NothingFinished d := by
  refine ⟨rfl, _, rfl, rfl, rfl, ?_⟩
  intro h
  have hopen := h (ascii "7") { head := cancelledHead } rfl cancelledHead (by
    rw [listMessages_head, List.mem_singleton])
  cases hopen

end CppAmi.Proof
