import CppAmi.Model.KeyValDict

/-!
# Reactions: what an invoke gets back

A `reaction::Event` is a single message. A `reaction::EventList` is a head, the
members that followed it, and the tail that ended the list.
-/

namespace CppAmi

/-- `event::Event` adds nothing to the dictionary it is made from. -/
abbrev Event := KeyValDict

structure EventList where
  head : Event
  tail : Option Event := none
  events : List Event := []
  deriving DecidableEq

/-- The classes that derive from `reaction::Reaction`. -/
inductive Reaction where
  | event (dict : Event)
  | eventList (list : EventList)
  deriving DecidableEq

/-- `Reaction::is_success(std::string const &)`. -/
def Reaction.isSuccess (status : Bytes) : Bool :=
  status == ascii "Success" || status == ascii "Goodbye"

/-- The messages a reaction was built from, in the order they arrived. -/
def Reaction.messages : Reaction → List Event
  | .event dict => [dict]
  | .eventList list => list.head :: list.events ++ list.tail.toList

namespace EventList

def isSuccess (l : EventList) : Bool :=
  match l.head.getValue (ascii "Response") with
  | some response => Reaction.isSuccess response
  | none => false

def isListComplete (eventListVal : Bytes) : Bool :=
  eventListVal == ascii "Complete" || eventListVal == ascii "cancelled"

/-- `add_event`: whether the list is now complete, and the list. -/
def addEvent (l : EventList) (event : Event) : Bool × EventList :=
  match event.getValue (ascii "EventList") with
  | some val =>
    if isListComplete val then (true, { l with tail := some event })
    else (false, { l with events := l.events ++ [event] })
  | none => (false, { l with events := l.events ++ [event] })

def toString (l : EventList) : Bytes :=
  let result := l.head.toString ++ l.events.flatMap KeyValDict.toString
  match l.tail with
  | some tail => result ++ tail.toString
  | none => result

def eventCount (l : EventList) : Nat := l.events.length

/-- `get_event`, compiled with assertions. -/
def getEvent (l : EventList) (eventIdx : Nat) : Except Fault Event :=
  match l.events[eventIdx]? with
  | some event => .ok event
  | none => .error .assertFailed

/-! ## Copies -/

/-- `std::make_unique<event::Event>(*tail)`. -/
def copyTail (tail : Option Event) : Except Fault (Option Event) :=
  match tail with
  | some tail => .ok (some tail)
  | none => .error .nullDeref

/-- `EventList(EventList const &)`. -/
def copy (right : EventList) : Except Fault EventList := do
  let tail ← copyTail right.tail
  .ok { head := right.head, tail := tail, events := right.events }

/-- `operator=(EventList const &)`. -/
def assign (left right : EventList) : Except Fault EventList := do
  let left := { left with head := right.head }
  let tail ← copyTail right.tail
  let left := { left with tail := tail }
  .ok { left with events := right.events }

/-- A list is made with its head, and `add_event` is what changes it. -/
def interface : Objects.Interface Fault Event Event EventList where
  construct head := .ok { head := head }
  call l event := (l.addEvent event).2
  copy := copy
  assign := assign

end EventList

/-- `reaction::Event::is_success`. -/
def Event.isSuccess (dict : Event) : Bool :=
  match dict.getValue (ascii "Response") with
  | some response => Reaction.isSuccess response
  | none => true

/-- `is_success()`, which is virtual. -/
def Reaction.reportsSuccess : Reaction → Bool
  | .event dict => Event.isSuccess dict
  | .eventList list => list.isSuccess

end CppAmi
