import CppAmi.Model.EventDispatcher
import Mathlib.Logic.Function.Basic

/-!
# What the dispatcher is for

The two maps of the dispatcher together keep, for each ActionID, at most one open
pipe and how far its response has come. `Router` says so directly: a slot for each
ActionID, and nothing else. A message goes to the slot it names if that is open and
to the notification callback if not, and no operation on one ActionID looks at the
slot of another.

`Move` lists everything one operation can do to a router; whatever is proved about
routers goes through `step_move`.
-/

namespace CppAmi

namespace KeyValDict

/-- The ActionID a message carries. -/
def actionId (m : Event) : Option Bytes := m.getValue (ascii "ActionID")

/-- A first message with an `EventList` key announces a list. -/
def startsList (m : Event) : Bool := m.hasKey (ascii "EventList")

/-- `Response: Success` or `Response: Goodbye`. -/
def accepted (m : Event) : Bool :=
  m.getValue (ascii "Response") = some (ascii "Success")
    ∨ m.getValue (ascii "Response") = some (ascii "Goodbye")

/-- `EventList: Complete` or `EventList: cancelled`. -/
def endsList (m : Event) : Bool :=
  m.getValue (ascii "EventList") = some (ascii "Complete")
    ∨ m.getValue (ascii "EventList") = some (ascii "cancelled")

/-- A message written down field by field. -/
def ofFields (fields : List (String × String)) : Event where
  orderedKeys := fields.map fun field => ascii field.1
  values := fields.foldl (fun values field => values.emplace (ascii field.1) (ascii field.2)) ∅

end KeyValDict

/-- The messages of a list, in the order they arrived. -/
def listMessages (l : EventList) : List Event := (Reaction.eventList l).messages

/-- The dispatcher has put this list together: it is in progress, or a future delivers it. -/
def EventDispatcher.Assembled (d : EventDispatcher) (l : EventList) : Prop :=
  (∃ a, d.eventMap.lookup a = some (some l)) ∨ Shared.value (some (.eventList l)) ∈ d.shared

/-- The messages a result delivers. -/
def Shared.messages : Shared → List Event
  | .value (some reaction) => reaction.messages
  | _ => []

namespace EventDispatcher

/-- The two maps agree, and every promise in them can still be satisfied. -/
structure Consistent (d : EventDispatcher) : Prop where
  registered : ∀ a, a ∈ d.eventMap → a ∈ d.promiseMap
  /-- An entry is a list without tail, with a successful head, and of its own ActionID. -/
  lists : ∀ a e, d.eventMap.lookup a = some e → ∃ l, e = some l ∧ l.tail = none
    ∧ l.isSuccess = true ∧ ∀ m ∈ l.head :: l.events, m.actionId = some a
  pending : ∀ a f, d.promiseMap.lookup a = some f → d.shared[f]? = some .pending

/-- No list that is in progress has a message that ends a list. -/
def NothingFinished (d : EventDispatcher) : Prop :=
  ∀ a l, d.eventMap.lookup a = some (some l) → ∀ m ∈ listMessages l, m.endsList = false

/-- A message that ends a response closes its pipe, with a reaction that it is part of. -/
def EndCloses (d : EventDispatcher) : Op → Prop
  | .dispatchEvent m => m.endsList = true → ∀ a f, m.actionId = some a →
    d.promiseMap.lookup a = some f → ∀ d', d.dispatchDict m = .ok d' →
    a ∉ d'.promiseMap ∧ a ∉ d'.eventMap
      ∧ ∃ reaction, d'.shared[f]? = some (.value (some reaction)) ∧ m ∈ reaction.messages
  | _ => True

/-- The first message of a list that is accepted does not end it. -/
def HeadOpen (d : EventDispatcher) : Op → Prop
  | .dispatchEvent m => ∀ a, m.actionId = some a → a ∈ d.promiseMap → a ∉ d.eventMap →
    m.startsList = true → m.accepted = true → m.endsList = false
  | _ => True

end EventDispatcher

/-! ## The response to one invocation -/

/-- How far the response to one invocation has come. -/
inductive Progress where
  | waiting
  | building (list : EventList)
  | done (outcome : Shared)

namespace Progress

/-- One more message of the response. -/
def receive : Progress → Event → Progress
  | .waiting, m =>
    if !m.startsList then .done (.value (some (.event m)))
    else if m.accepted then .building { head := m }
    else .done (.value (some (.eventList { head := m })))
  | .building l, m =>
    if m.endsList then .done (.value (some (.eventList { l with tail := some m })))
    else .building { l with events := l.events ++ [m] }
  | .done outcome, _ => .done outcome

/-- The response is cut short. -/
def close (outcome : Shared) : Progress → Progress
  | .done outcome => .done outcome
  | _ => .done outcome

/-- The messages of an unfinished response. -/
def gathered : Progress → List Event
  | .building l => listMessages l
  | _ => []

/-- What the future reports. -/
def outcome : Progress → Shared
  | .done outcome => outcome
  | _ => .pending

end Progress

/-- What an operation can do to the pipe of one ActionID. -/
inductive PipeOp where
  | message (m : Event)
  | close (outcome : Shared)

def Progress.step : Progress → PipeOp → Progress
  | p, .message m => p.receive m
  | p, .close outcome => p.close outcome

/-- How far a response has come after the operations on its pipe. -/
def progressOf (ops : List PipeOp) : Progress := ops.foldl Progress.step .waiting

/-- `reaction` is the response that the messages `ms` complete: it is made of the first of them,
up to the one that completes it. -/
structure Completes (ms : List Event) (reaction : Reaction) : Prop where
  first : reaction.messages <+: ms
  complete :
    progressOf (reaction.messages.map .message) = .done (.value (some reaction))
  /-- No fewer would do. -/
  least : ∀ k, k < reaction.messages.length →
    (progressOf ((reaction.messages.take k).map .message)).outcome = .pending

namespace EventDispatcher.Op

/-- The ActionID whose pipe an operation closes, and with what. -/
def closes : Op → Option (Bytes × Shared)
  | .setExceptionOnPipe a err => some (a, .exception err)
  | .setNullOnPipe a => some (a, .value none)
  | _ => none

/-- The part of an operation that concerns the pipe of `a`, once that is registered. -/
def onPipe (a : Bytes) : Op → Option PipeOp
  | .getEventPipe _ => none
  | .dispatchEvent m => if m.actionId = some a then some (.message m) else none
  | .setExceptionOnPipe b err => if b = a then some (.close (.exception err)) else none
  | .setNullOnPipe b => if b = a then some (.close (.value none)) else none

end EventDispatcher.Op

/-! ## The slots of all ActionIDs -/

structure Router where
  /-- The open pipe of an ActionID, and how far its response has come. -/
  slot : Bytes → Option (Nat × Progress)
  shared : List Shared
  notified : List Event

namespace Router

open EventDispatcher

def notify (r : Router) (m : Event) : Router := { r with notified := r.notified ++ [m] }

/-- Record progress on the pipe `f` of `a`; a finished response closes the pipe. -/
def put (r : Router) (a : Bytes) (f : Nat) : Progress → Router
  | .done outcome =>
    { r with slot := Function.update r.slot a none, shared := r.shared.set f outcome }
  | p => { r with slot := Function.update r.slot a (some (f, p)) }

/-- Register the pipe of an ActionID that has none. -/
def opened (r : Router) (a : Bytes) : Router :=
  { r with
    slot := Function.update r.slot a (some (r.shared.length, .waiting)),
    shared := r.shared ++ [Shared.pending] }

/-- A second pipe for an ActionID that has one is broken from the start. -/
def refused (r : Router) : Router :=
  { r with shared := r.shared ++ [Shared.exception .brokenPromise] }

def step (r : Router) (op : Op) : Router :=
  match op with
  | .getEventPipe a =>
    match r.slot a with
    | none => r.opened a
    | some _ => r.refused
  | .dispatchEvent m =>
    match m.actionId with
    | none => r.notify m
    | some a =>
      match r.slot a with
      | none => r.notify m
      | some (f, p) => r.put a f (p.receive m)
  | .setExceptionOnPipe a err =>
    match r.slot a with
    | none => r
    | some (f, p) => r.put a f (p.close (.exception err))
  | .setNullOnPipe a =>
    match r.slot a with
    | none => r
    | some (f, p) => r.put a f (p.close (.value none))

/-- Everything one operation can do. -/
inductive Move (r : Router) : Op → Router → Prop where
  | opened {a : Bytes} (hs : r.slot a = none) : Move r (.getEventPipe a) (r.opened a)
  | refused {a : Bytes} {fp : Nat × Progress} (hs : r.slot a = some fp) :
      Move r (.getEventPipe a) r.refused
  | notified {m : Event} (hm : ∀ a, m.actionId = some a → r.slot a = none) :
      Move r (.dispatchEvent m) (r.notify m)
  | received {m : Event} {a : Bytes} {f : Nat} {p : Progress} (hm : m.actionId = some a)
      (hs : r.slot a = some (f, p)) : Move r (.dispatchEvent m) (r.put a f (p.receive m))
  | closed {op : Op} {a : Bytes} {outcome : Shared} {f : Nat} {p : Progress}
      (hop : op.closes = some (a, outcome)) (hs : r.slot a = some (f, p)) :
      Move r op (r.put a f (p.close outcome))
  | idle {op : Op} {a : Bytes} {outcome : Shared} (hop : op.closes = some (a, outcome))
      (hs : r.slot a = none) : Move r op r

theorem step_move (r : Router) (op : Op) : Move r op (r.step op) := by
  cases op with
  | getEventPipe a =>
      rw [step]
      cases hs : r.slot a with
      | none => exact .opened hs
      | some fp => exact .refused hs
  | dispatchEvent m =>
      rw [step]
      cases hm : m.actionId with
      | none => exact .notified fun a ha => by rw [hm] at ha; cases ha
      | some a =>
          dsimp only
          cases hs : r.slot a with
          | none => exact .notified fun b hb => by rw [hm] at hb; cases hb; exact hs
          | some fp => exact .received hm hs
  | setExceptionOnPipe a err =>
      rw [step]
      cases hs : r.slot a with
      | none => exact .idle rfl hs
      | some fp => exact .closed rfl hs
  | setNullOnPipe a =>
      rw [step]
      cases hs : r.slot a with
      | none => exact .idle rfl hs
      | some fp => exact .closed rfl hs

/-- An operation does one thing to a router. -/
theorem Move.eq_step {r r' : Router} {op : Op} (h : Move r op r') : r' = r.step op := by
  cases h with
  | opened hs => simp only [step, hs]
  | refused hs => simp only [step, hs]
  | @notified m hm =>
      rw [step]
      cases ha : m.actionId with
      | none => rfl
      | some a => simp only [hm a ha]
  | received hm hs => simp only [step, hm, hs]
  | @closed op a outcome f p hop hs =>
      cases op <;> cases hop <;> simp only [step, hs]
  | @idle op a outcome hop hs =>
      cases op <;> cases hop <;> simp only [step, hs]

end Router

end CppAmi
