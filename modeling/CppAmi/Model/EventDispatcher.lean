import CppAmi.Lib.Run
import CppAmi.Model.Reaction

/-!
# `EventDispatcher`

A promise and its future share a state. Futures are numbered in the order
`get_event_pipe` hands them out, and `shared` holds the state of each; a promise is
known by the number of its future. The maps own promises: a promise that is
destroyed while its state is pending breaks, which its future reports as an
exception.

Each function that takes the map mutexes is one step here, since nothing else
touches the maps. The calls to `dispatch_` are recorded in `notified`.
-/

namespace CppAmi

/-- The state a promise shares with its future. -/
inductive Shared where
  | pending
  /-- `set_value`; `none` is `nullptr`. -/
  | value (reaction : Option Reaction)
  | exception (err : Exn)
  deriving DecidableEq

structure EventDispatcher where
  promiseMap : UMap Nat := ∅
  /-- A moved-from `std::unique_ptr` is `none`. -/
  eventMap : UMap (Option EventList) := ∅
  shared : List Shared := []
  /-- What `dispatch_` was called with. -/
  notified : List Event := []

namespace EventDispatcher

/-! ## Promises -/

/-- Store a result through a promise, which throws when it already has one. -/
def satisfy (d : EventDispatcher) (pipe : Nat) (result : Shared) :
    Except Fault EventDispatcher :=
  match d.shared[pipe]? with
  | some .pending => .ok { d with shared := d.shared.set pipe result }
  | _ => .error (.throws .promiseAlreadySatisfied)

def setValue (d : EventDispatcher) (pipe : Nat) (reaction : Option Reaction) :
    Except Fault EventDispatcher :=
  d.satisfy pipe (.value reaction)

/-- `~promise()`. -/
def destroyPromise (d : EventDispatcher) (pipe : Nat) : EventDispatcher :=
  match d.shared[pipe]? with
  | some .pending => { d with shared := d.shared.set pipe (.exception .brokenPromise) }
  | _ => d

/-- `promise_map_.erase(it)` at the entry of `actionId`. -/
def erasePromise (d : EventDispatcher) (actionId : Bytes) : EventDispatcher :=
  match d.promiseMap.lookup actionId with
  | some pipe => { d with promiseMap := d.promiseMap.erase actionId }.destroyPromise pipe
  | none => d

/-! ## Operations -/

/-- The state after the call, and the future returned. -/
def getEventPipe (d : EventDispatcher) (actionId : Bytes) : EventDispatcher × Nat :=
  let future := d.shared.length
  let d := { d with shared := d.shared ++ [Shared.pending] }
  -- on an existing key `emplace` inserts nothing, and the promise dies with the call
  if actionId ∈ d.promiseMap then (d.destroyPromise future, future)
  else ({ d with promiseMap := d.promiseMap.emplace actionId future }, future)

/-- `dispatch_(std::make_unique<event::Event const>(std::move(dict)))`. -/
def notify (d : EventDispatcher) (dict : KeyValDict) : EventDispatcher :=
  { d with notified := d.notified ++ [dict] }

/--
`dispatch_event(action_id, dict)`. The result is the returned flag, what is left in
the caller's `dict`, and the dispatcher.
-/
def dispatchResponse (d : EventDispatcher) (actionId : Bytes) (dict : KeyValDict) :
    Except Fault (Bool × KeyValDict × EventDispatcher) :=
  match d.promiseMap.lookup actionId with
  | none => .ok (false, dict, d)
  | some pipe =>
    match d.eventMap.lookup actionId with
    | none =>
      if !dict.hasKey (ascii "EventList") then do
        let d ← d.setValue pipe (some (.event dict))
        .ok (true, .moved, d.erasePromise actionId)
      else
        let eventList : EventList := { head := dict }
        if eventList.isSuccess then
          .ok (true, .moved,
            { d with eventMap := UMap.emplace d.eventMap actionId (some eventList) })
        else do
          let d ← d.setValue pipe (some (.eventList eventList))
          .ok (true, .moved, d.erasePromise actionId)
    | some none => .error .nullDeref
    | some (some eventList) =>
      let (complete, eventList) := eventList.addEvent dict
      if complete then do
        -- the list is moved out of its entry before the entry is erased
        let d := { d with eventMap := d.eventMap.insert actionId none }
        let d ← d.setValue pipe (some (.eventList eventList))
        let d := d.erasePromise actionId
        .ok (true, .moved, { d with eventMap := d.eventMap.erase actionId })
      else
        .ok (true, .moved, { d with eventMap := d.eventMap.insert actionId (some eventList) })

/-- `dispatch_event(event_buf)` once the message is parsed. -/
def dispatchDict (d : EventDispatcher) (dict : KeyValDict) : Except Fault EventDispatcher :=
  match dict.getValue (ascii "ActionID") with
  | none => .ok (d.notify dict)
  | some actionId => do
    let (responded, dict, d) ← d.dispatchResponse actionId dict
    if responded then .ok d else .ok (d.notify dict)

def dispatchEvent (d : EventDispatcher) (eventBuf : Bytes) : Except Fault EventDispatcher := do
  let dict ← KeyValDict.ofMessage eventBuf
  d.dispatchDict dict

/-- Close the pipe of `actionId` with a result, if it is open, and drop its list. -/
def closePipe (d : EventDispatcher) (actionId : Bytes) (result : Shared) :
    Except Fault EventDispatcher :=
  match d.promiseMap.lookup actionId with
  | some pipe => do
    let d ← d.satisfy pipe result
    let d := d.erasePromise actionId
    .ok { d with eventMap := d.eventMap.erase actionId }
  | none => .ok { d with eventMap := d.eventMap.erase actionId }

def setExceptionOnPipe (d : EventDispatcher) (actionId : Bytes) (err : Exn) :
    Except Fault EventDispatcher :=
  d.closePipe actionId (.exception err)

def setNullOnPipe (d : EventDispatcher) (actionId : Bytes) : Except Fault EventDispatcher :=
  d.closePipe actionId (.value none)

/-- `cleanup_object()`, compiled with or without assertions. -/
def cleanupObject (asserts : Bool) (d : EventDispatcher) : Except Fault EventDispatcher :=
  if asserts && !d.promiseMap.entries.isEmpty then .error .assertFailed
  else do
    let d ← d.promiseMap.entries.foldlM (fun d entry => d.setValue entry.2 none) d
    if asserts && !d.eventMap.entries.isEmpty then .error .assertFailed else .ok d

/-- `~EventDispatcher()` once the worker has stopped: clean up, then destroy the maps. -/
def destroy (asserts : Bool) (d : EventDispatcher) : Except Fault EventDispatcher := do
  let d ← d.cleanupObject asserts
  let d := d.promiseMap.entries.foldl (fun d entry => d.destroyPromise entry.2) d
  .ok { d with promiseMap := ∅, eventMap := ∅ }

/-! ## Runs -/

/-- The operations, with messages already parsed. -/
inductive Op where
  | getEventPipe (actionId : Bytes)
  | dispatchEvent (dict : KeyValDict)
  | setExceptionOnPipe (actionId : Bytes) (err : Exn)
  | setNullOnPipe (actionId : Bytes)

def apply (d : EventDispatcher) : Op → Except Fault EventDispatcher
  | .getEventPipe actionId => .ok (d.getEventPipe actionId).1
  | .dispatchEvent dict => d.dispatchDict dict
  | .setExceptionOnPipe actionId err => d.setExceptionOnPipe actionId err
  | .setNullOnPipe actionId => d.setNullOnPipe actionId

/-- A run of the dispatcher from the state its constructor leaves. -/
def runOps (ops : List Op) : Except Fault EventDispatcher := Run.run apply {} ops

end EventDispatcher

end CppAmi
