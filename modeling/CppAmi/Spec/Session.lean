import CppAmi.Model.Connection
import CppAmi.Spec.Router

/-!
# What an invocation is owed

An invocation hears the messages with its ActionID that the dispatcher takes from its
registration on. Its `response` is what these make of it, and the statements about
`invoke` compare what it returns with that.

The program tells invocations apart by ActionID only. `Sequential` is the discipline
under which that is enough: an ActionID is registered again only after the invocation
before has returned or thrown.
-/

namespace CppAmi

/-- The future a call in progress holds. -/
def Pc.future : Pc → Option Nat
  | .registered f | .waiting f | .timedOut f | .getting f => some f
  | _ => none

/-- A call that has not begun, or that has had its result. -/
def Pc.Retired : Pc → Prop
  | .start | .returned _ | .threw _ => True
  | _ => False

/-- Past the write. -/
def Pc.Sent : Pc → Prop
  | .start | .registered _ | .writeThrew _ => False
  | _ => True

/-- Past the wait of the timed overload. -/
def Pc.Settled : Pc → Prop
  | .getting _ | .returned _ | .threw _ => True
  | _ => False

/-- A call with the ActionID of the message and with a timeout is past its wait. -/
def GaveUp {ι : Type} (calls : ι → Call) (pc : ι → Pc) (m : Event) : Prop :=
  ∃ i, m.actionId = some (calls i).actionId ∧ (calls i).timeout.isSome ∧ (pc i).Settled

/-- What the messages of a response are to be: one that starts no list, one that starts a list
and is refused, or an accepted list up to the message that ends it. -/
def Reaction.Shaped : Reaction → Prop
  | .event m => m.startsList = false
  | .eventList l =>
    l.head.startsList = true ∧ (∀ m ∈ l.events, m.endsList = false)
      ∧ match l.tail with
        | none => l.head.accepted = false ∧ l.events = []
        | some tail => l.head.accepted = true ∧ tail.endsList = true

namespace World

variable {ι : Type}

/-- What the dispatcher took for an ActionID once `since` messages had been taken. -/
def heardSince (w : World ι) (actionId : Bytes) (since : Nat) : List (Option ι × Event) :=
  (w.delivered.drop since).filter fun sm => sm.2.actionId = some actionId

/-- The messages a call has heard, with the calls they answer. -/
def heard (calls : ι → Call) (w : World ι) (i : ι) : List (Option ι × Event) :=
  w.heardSince (calls i).actionId (w.mark i)

/-- How far the response has come that a call has heard. -/
def response (calls : ι → Call) (w : World ι) (i : ι) : Progress :=
  progressOf (((w.heard calls i).map Prod.snd).map .message)

/-- Everything the server has sent, in order. -/
def traffic (w : World ι) : List (Option ι × Event) := w.delivered ++ w.inFlight

/-- The messages with an ActionID that the server has sent. -/
def emitted (w : World ι) (actionId : Bytes) : List Event :=
  (w.traffic.filter fun sm => sm.2.actionId = some actionId).map Prod.snd

/-- A result a call can get: the response that it heard, or its timeout. -/
def OneOutcome (calls : ι → Call) (w : World ι) (i : ι) (outcome : Shared) : Prop :=
  (∃ reaction, outcome = .value (some reaction)
      ∧ Completes ((w.heard calls i).map Prod.snd) reaction)
    ∨ outcome = .exception (timeoutError (calls i).actionId)

/-- No call is in progress. -/
def Idle (w : World ι) : Prop := ∀ i, (w.pc i).future = none

/-- Every write succeeds, and the server sends messages with a call's ActionID only once the call
has written its action. -/
def Answering (calls : ι → Call) (w : World ι) : Label ι → Prop
  | .writeThrows _ _ => False
  | .emit _ m => ∀ i, m.actionId = some (calls i).actionId →
    (i, (calls i).action.toString) ∈ w.wire
  | _ => True

/-- The ActionID is registered only when no other call with it is in progress, and none has left
its pipe behind. -/
def Sequential (calls : ι → Call) (a : Bytes) (w : World ι) : Label ι → Prop
  | .getEventPipe i =>
    (calls i).actionId = a → ∀ j, (calls j).actionId = a → j ≠ i → (w.pc j).Retired
  | _ => True

/-- The server answers calls that have written, with their ActionID, and calls with one ActionID
in the order in which they have written. -/
def InOrder [DecidableEq ι] (calls : ι → Call) (w : World ι) : Label ι → Prop
  | .emit (some i) m =>
    m.actionId = some (calls i).actionId ∧ i ∈ w.wire.map Prod.fst
      ∧ ∀ sm ∈ w.traffic, ∀ j, sm.1 = some j → (calls j).actionId = (calls i).actionId →
        (w.wire.map Prod.fst).idxOf j ≤ (w.wire.map Prod.fst).idxOf i
  | .emit none m => ∀ i, m.actionId ≠ some (calls i).actionId
  | _ => True

/-- Nothing comes late for a call: when it registers no message with its ActionID is in flight,
and while it is in progress the server sends none but in answer to it. -/
def NoLate (calls : ι → Call) (i : ι) (w : World ι) : Label ι → Prop
  | .getEventPipe j => j = i → ∀ sm ∈ w.inFlight, sm.2.actionId ≠ some (calls i).actionId
  | .emit source m =>
    m.actionId = some (calls i).actionId → (w.pc i).future ≠ none → source = some i
  | _ => True

/-- What a call returned was sent in answer to it. -/
def OnlyOwn (calls : ι → Call) (w : World ι) (i : ι) : Prop :=
  ∀ reaction, w.pc i = .returned (some reaction) →
    ∃ own, own <+: w.heard calls i ∧ own.map Prod.snd = reaction.messages
      ∧ ∀ sm ∈ own, sm.1 = some i

end World

end CppAmi
