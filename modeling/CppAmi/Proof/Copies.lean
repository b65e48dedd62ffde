import CppAmi.Proof.Finished
import CppAmi.Spec.Copies

/-!
# Copies of a list

Both ways to copy a list dereference its tail, and a list has a tail from the moment a
message that ends it is added. So `copies_iff` says which lists can be copied, for every
list of a program and whatever it came from. A list that the dispatcher delivers for a
refused request never gets a tail (`refused_list_not_copied`).
-/

namespace CppAmi.Proof

open CppAmi EventDispatcher EventList

/-! ## One copy -/

theorem copy_eq_ok {right l : EventList} : copy right = .ok l ↔ right.tail ≠ none ∧ l = right := by
  obtain ⟨head, tail, events⟩ := right
  cases tail with
  | none => simp [copy, copyTail, bind, Except.bind]
  | some m => simp [copy, copyTail, bind, Except.bind, eq_comm]

/-- What an assignment leaves does not depend on what was there. -/
theorem assign_eq_copy (left right : EventList) : assign left right = copy right := rfl

theorem faithful_lists : EventList.interface.Faithful where
  copy := fun a b h => (copy_eq_ok.mp h).2
  assign := by
    intro a b r h
    have h : assign a b = .ok r := h
    rw [assign_eq_copy] at h
    exact (copy_eq_ok.mp h).2

theorem sameAs_iff {l right : EventList} : l.SameAs right ↔ l = right := by
  constructor
  · intro h
    obtain ⟨head, tail, events⟩ := l
    obtain ⟨head', tail', events'⟩ := right
    obtain ⟨rfl, rfl, rfl, _⟩ := h
    rfl
  · rintro rfl
    exact ⟨rfl, rfl, rfl, rfl, rfl, rfl⟩

section Runs

variable {ι : Type} [DecidableEq ι] {s : ι → Option EventList}

/-- An operation that copies does so exactly when its source has a tail. -/
theorem copied_iff_tail {o : Objects.Op ι Event Event} {right : EventList}
    (h : EventList.interface.result s o = some (copy right)) :
    Copied s o right ↔ right.tail ≠ none := by
  constructor
  · rintro ⟨s', l, hs, hl, _, _⟩
    obtain ⟨a, ha, _⟩ := Objects.step_eq_ok hs
    rw [h] at ha
    exact (copy_eq_ok.mp (Option.some.inj ha)).1
  · intro htail
    rw [copy_eq_ok.mpr ⟨htail, rfl⟩] at h
    have hs := Objects.step_of_result h
    exact ⟨_, right, hs, Function.update_self _ _ s, sameAs_iff.mpr rfl,
      fun j hj => Objects.step_frame hs hj⟩

/-! ## Runs -/

theorem tail_addEvent (l : EventList) (m : Event) :
    (l.addEvent m).2.tail ≠ none ↔ l.tail ≠ none ∨ m.endsList = true := by
  rw [addEvent_eq]
  cases hend : m.endsList with
  | true => simp
  | false => simp

/-- **A list has a tail once a message that ends it was added.** -/
theorem tail_iff_ended {ops : List (Objects.Op ι Event Event)}
    (hrun : Objects.run EventList.interface ops = .ok s) {i : ι} {l : EventList}
    (hi : s i = some l) : l.tail ≠ none ↔ Ended ops i := by
  obtain ⟨lin, hlin, h⟩ := Objects.run_rule
    (P := fun _ ms l => l.tail ≠ none ↔ ∃ m ∈ ms, m.endsList = true) faithful_lists
    (fun _ head b _ hb => by
      cases hb
      simp)
    (fun _ ms b m h => by
      show (b.addEvent m).2.tail ≠ none ↔ _
      rw [tail_addEvent, h]
      simp [or_and_right, exists_or])
    hrun hi
  rw [h]
  constructor
  · intro hm
    exact ⟨lin, hlin, hm⟩
  · rintro ⟨lin', hlin', hm⟩
    rw [hlin] at hlin'
    cases hlin'
    exact hm

end Runs

/--
**A list is copied exactly when a message that ends it was added.**

In every state a program reaches that makes lists, adds to them and copies them, both
ways to copy return for the same lists: the copy constructor, and assignment onto
whatever other list.
-/
theorem copies_iff {ι : Type} [DecidableEq ι] (ops : List (Objects.Op ι Event Event))
    (s : ι → Option EventList) (hrun : Objects.run EventList.interface ops = .ok s)
    (source i : ι) (right : EventList) (hright : s source = some right) :
    (Copied s (.copyConstruct i source) right ↔ Ended ops source)
      ∧ ∀ left, s i = some left →
        (Copied s (.copyAssign i source) right ↔ Ended ops source) := by
  have htail := tail_iff_ended hrun hright
  constructor
  · rw [← htail]
    refine copied_iff_tail ?_
    rw [Objects.Interface.result, hright]
    rfl
  · intro left hleft
    rw [← htail]
    refine copied_iff_tail ?_
    rw [Objects.Interface.result, hleft, hright]
    rfl

/-- The head of a list that was refused. -/
def refusedHead : Event :=
  KeyValDict.ofFields [("Response", "Error"), ("ActionID", "7"), ("EventList", "start"),
    ("Message", "Permission denied")]

def parkedHead : Event :=
  KeyValDict.ofFields [("Response", "Success"), ("ActionID", "8"), ("EventList", "start")]

def parkedTail : Event :=
  KeyValDict.ofFields [("Event", "ParkedCallsComplete"), ("ActionID", "8"),
    ("EventList", "Complete")]

/-- A list that failed, and one that is finished. -/
def twoLists : List (Objects.Op Nat Event Event) :=
  [.construct 0 refusedHead, .construct 1 parkedHead, .call 1 parkedTail]

/-- The rule at a finished list that is copied over a failed one. -/
theorem copies_finished :
    ∃ s right, Objects.run EventList.interface twoLists = .ok s ∧ s 1 = some right
      ∧ ((Copied s (.copyConstruct 0 1) right ↔ Ended twoLists 1)
        ∧ ∀ left, s 0 = some left →
          (Copied s (.copyAssign 0 1) right ↔ Ended twoLists 1)) :=
  ⟨_, _, rfl, rfl, copies_iff twoLists _ rfl 1 0 _ rfl⟩

/-! ## A list of the dispatcher -/

/-- A request is refused: its future delivers a list, and neither way to copy that list returns. -/
theorem refused_list_not_copied :
    (∃ d, runOps [.getEventPipe (ascii "7"), .dispatchEvent refusedHead] = .ok d
        ∧ d.shared = [.value (some (.eventList { head := refusedHead }))])
      ∧ ∃ s, Objects.run EventList.interface twoLists = .ok s
        ∧ s 0 = some { head := refusedHead }
        ∧ Objects.step EventList.interface s (.copyConstruct 2 0) = .error (.raised .nullDeref)
        ∧ Objects.step EventList.interface s (.copyAssign 1 0) = .error (.raised .nullDeref)
        ∧ ¬ Copied s (.copyConstruct 2 0) { head := refusedHead } := by
  refine ⟨⟨_, rfl, rfl⟩, _, rfl, rfl, rfl, rfl, ?_⟩
  rintro ⟨s', l, hs, _⟩
  cases hs

end CppAmi.Proof
