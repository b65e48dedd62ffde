import CppAmi.Model.Action
import CppAmi.Model.EventDispatcher
import Mathlib.Logic.Function.Basic

/-!
# `Connection::invoke`, called from many threads

Each call of `invoke` is a thread that registers a pipe, writes its action to the
socket, and waits for the pipe, without or with a timeout. The threads, the AMI server
and the dispatcher's worker take turns in any order: a `Label` names whose turn it is,
and `World.step` says what happens.

Between the server and the dispatcher the messages wait in one queue, which stands for
the socket, the parser's buffer and the `events_` of the dispatcher. A message is
labelled with the call it answers. Only the statements of this development look at that
label: the program sees nothing but the ActionID.
-/

namespace CppAmi

/-- The arguments of `Connection::invoke`; without a timeout it is the first overload. -/
structure Call where
  action : Action
  timeout : Option Nat := none

def Call.actionId (c : Call) : Bytes := c.action.actionId

/-- What the timed overload stores in the pipe when the timeout is over. -/
def timeoutError (actionId : Bytes) : Exn :=
  .runtimeError (ascii "Event timeout: Timeout waiting for event; ActionID=" ++ actionId)

/-- Where a call of `invoke` has got to. -/
inductive Pc where
  | start
  /-- `get_event_pipe` has returned. -/
  | registered (future : Nat)
  /-- In `reaction.wait_for(timeout)`. -/
  | waiting (future : Nat)
  /-- `wait_for` has reported a timeout. -/
  | timedOut (future : Nat)
  /-- In `reaction.get()`. -/
  | getting (future : Nat)
  | returned (reaction : Option Reaction)
  /-- `reaction.get()` has thrown. -/
  | threw (err : Exn)
  /-- `writer_->write()` has thrown; the future is gone. -/
  | writeThrew (err : Exn)

inductive Label (ι : Type) where
  | getEventPipe (i : ι)
  | write (i : ι)
  | writeThrows (i : ι) (what : Bytes)
  | waitReady (i : ι)
  | waitTimeout (i : ι)
  | setExceptionOnPipe (i : ι)
  | get (i : ι)
  /-- The server sends a message, in answer to a call or of its own accord. -/
  | emit (source : Option ι) (message : Event)
  /-- The dispatcher takes the next message. -/
  | dispatch

/-- The call whose turn it is. -/
def Label.caller {ι : Type} : Label ι → Option ι
  | .getEventPipe i | .write i | .writeThrows i _ | .waitReady i | .waitTimeout i
  | .setExceptionOnPipe i | .get i => some i
  | .emit _ _ | .dispatch => none

structure World (ι : Type) where
  dispatcher : EventDispatcher := {}
  pc : ι → Pc := fun _ => .start
  /-- What was written to the socket. -/
  wire : List (ι × Bytes) := []
  inFlight : List (Option ι × Event) := []
  /-- Ghost: what the dispatcher has taken. -/
  delivered : List (Option ι × Event) := []
  /-- Ghost: how much of `delivered` was there when the call registered. -/
  mark : ι → Nat := fun _ => 0
  /-- Ghost: whether `wait_for` has reported a timeout to the call. -/
  elapsed : ι → Bool := fun _ => false

namespace World

variable {ι : Type} [DecidableEq ι]

/-- An operation of the dispatcher within a turn. -/
def lift {α : Type} : Except Fault α → Except Stop α
  | .ok a => .ok a
  | .error f => .error (.fault f)

def goto (w : World ι) (i : ι) (pc : Pc) : World ι := { w with pc := Function.update w.pc i pc }

def step (calls : ι → Call) (w : World ι) : Label ι → Except Stop (World ι)
  | .getEventPipe i =>
    match w.pc i with
    | .start =>
      let (dispatcher, future) := w.dispatcher.getEventPipe (calls i).actionId
      .ok { w.goto i (.registered future) with
        dispatcher := dispatcher,
        mark := Function.update w.mark i w.delivered.length }
    | _ => .error .disabled
  | .write i =>
    match w.pc i with
    | .registered future =>
      .ok { w.goto i (if (calls i).timeout.isSome then .waiting future else .getting future) with
        wire := w.wire ++ [(i, (calls i).action.toString)] }
    | _ => .error .disabled
  | .writeThrows i what =>
    match w.pc i with
    | .registered _ =>
      .ok (w.goto i (.writeThrew (.runtimeError (ascii "Error writing socket: " ++ what))))
    | _ => .error .disabled
  | .waitReady i =>
    match w.pc i with
    | .waiting future =>
      if w.dispatcher.shared[future]? = some .pending then .error .disabled
      else .ok (w.goto i (.getting future))
    | _ => .error .disabled
  | .waitTimeout i =>
    match w.pc i with
    | .waiting future =>
      -- `wait_for` only reports a timeout on a future that is not ready
      if w.dispatcher.shared[future]? = some .pending then
        .ok { w.goto i (.timedOut future) with elapsed := Function.update w.elapsed i true }
      else .error .disabled
    | _ => .error .disabled
  | .setExceptionOnPipe i =>
    match w.pc i with
    | .timedOut future => do
      let dispatcher ← lift (w.dispatcher.setExceptionOnPipe (calls i).actionId
        (timeoutError (calls i).actionId))
      .ok { w.goto i (.getting future) with dispatcher := dispatcher }
    | _ => .error .disabled
  | .get i =>
    match w.pc i with
    | .getting future =>
      match w.dispatcher.shared[future]? with
      | some (.value reaction) => .ok (w.goto i (.returned reaction))
      | some (.exception err) => .ok (w.goto i (.threw err))
      | _ => .error .disabled
    | _ => .error .disabled
  | .emit source message => .ok { w with inFlight := w.inFlight ++ [(source, message)] }
  | .dispatch =>
    match w.inFlight with
    | [] => .error .disabled
    | (source, message) :: rest => do
      let dispatcher ← lift (w.dispatcher.dispatchDict message)
      .ok { w with
        dispatcher := dispatcher,
        inFlight := rest,
        delivered := w.delivered ++ [(source, message)] }

/-- A history of a connection, from before the first call. -/
def runLabels (calls : ι → Call) (labels : List (Label ι)) : Except Stop (World ι) :=
  Run.run (step calls) {} labels

end World

end CppAmi
