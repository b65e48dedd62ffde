import CppAmi.Spec.Router

/-!
# What a copy of a list is

A copy shows what its source shows, and making it changes nothing else (`Copied`).
`Ended` is about the history of a list instead: whether a message that ends it was ever
added to it, or to a list that it is a copy of.
-/

namespace CppAmi.EventList

/-- `l` shows what `right` shows. -/
structure SameAs (l right : EventList) : Prop where
  head : l.head = right.head
  members : l.events = right.events
  tail : l.tail = right.tail
  success : l.isSuccess = right.isSuccess
  count : l.eventCount = right.eventCount
  text : l.toString = right.toString

variable {ι : Type} [DecidableEq ι]

/-- The operation returns and leaves a list like `right` under its name, and the others alone. -/
def Copied (s : ι → Option EventList) (o : Objects.Op ι Event Event) (right : EventList) : Prop :=
  ∃ s' l, Objects.step interface s o = .ok s' ∧ s' o.target = some l ∧ l.SameAs right
    ∧ ∀ j, j ≠ o.target → s' j = s j

def Ended (ops : List (Objects.Op ι Event Event)) (i : ι) : Prop :=
  ∃ l, Objects.lineage ops i = some l ∧ ∃ m ∈ l.calls, m.endsList = true

end CppAmi.EventList
