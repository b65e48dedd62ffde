import CppAmi.Lib.Run
import CppAmi.Model.Action
import Mathlib.Logic.Function.Basic

/-!
# `TcpSocket::write`, called from many threads

Each call of `Connection::invoke` and `async_invoke` writes the text of its action
once, through `SocketWriter::write`. The calls take turns in any order, and the kernel
chooses what `send` returns: that it failed, or how many of the bytes it has accepted.
-/

namespace CppAmi

/-- A call of `Connection::invoke` or `async_invoke`. -/
inductive Request where
  | invoke (action : Action) (timeout : Option Nat)
  | asyncInvoke (action : Action)

def Request.action : Request → Action
  | .invoke action _ | .asyncInvoke action => action

/-- What the call hands to `writer_->write()`. -/
def Request.data : Request → Bytes
  | .invoke action _ | .asyncInvoke action => action.toString

/-- Where a call of `write` has got to. -/
inductive WritePc where
  | start
  /-- It holds `write_mutex_`. -/
  | locked
  | returned
  | threw (what : Bytes)

structure TcpSocket (ι : Type) where
  sockFd : Int
  writeMutex : Option ι := none
  /-- The bytes that `send` has accepted. -/
  stream : Bytes := []
  pc : ι → WritePc := fun _ => .start
  /-- Ghost: the calls of `send` that succeeded, with what they returned. -/
  sends : List (ι × Nat) := []

namespace TcpSocket

inductive Label (ι : Type) where
  /-- The call begins, up to where it holds the mutex. -/
  | lock (i : ι)
  /-- It finds the socket closed. -/
  | closed (i : ι)
  /-- `send` accepts some bytes. -/
  | send (i : ι) (writeSize : Nat)
  | sendFails (i : ι) (what : Bytes)

variable {ι : Type} [DecidableEq ι]

/-- A call leaves `write`, which unlocks the mutex. -/
def leave (s : TcpSocket ι) (i : ι) (pc : WritePc) : TcpSocket ι :=
  { s with pc := Function.update s.pc i pc, writeMutex := none }

/-- One turn of `write(data)`, which fails where it is not the call's turn to do that. -/
def step (data : ι → Bytes) (s : TcpSocket ι) : Label ι → Except Unit (TcpSocket ι)
  | .lock i =>
    match s.pc i with
    | .start =>
      if data i = [] then .ok { s with pc := Function.update s.pc i .returned }
      else if s.writeMutex = none then
        .ok { s with pc := Function.update s.pc i .locked, writeMutex := some i }
      else .error ()
    | _ => .error ()
  | .closed i =>
    match s.pc i with
    | .locked => if s.sockFd = -1 then .ok (s.leave i .returned) else .error ()
    | _ => .error ()
  | .send i writeSize =>
    match s.pc i with
    | .locked =>
      if s.sockFd ≠ -1 ∧ 1 ≤ writeSize ∧ writeSize ≤ (data i).length then
        -- `write_size` is compared with -1 and nothing else
        .ok { s.leave i .returned with
          stream := s.stream ++ (data i).take writeSize,
          sends := s.sends ++ [(i, writeSize)] }
      else .error ()
    | _ => .error ()
  | .sendFails i what =>
    match s.pc i with
    | .locked =>
      if s.sockFd ≠ -1 then .ok (s.leave i (.threw (ascii "Error writing socket: " ++ what)))
      else .error ()
    | _ => .error ()

/-! ## What is said about the stream -/

/-- The stream is made of the whole texts of the calls that returned, each once. -/
def Whole (data : ι → Bytes) (s : TcpSocket ι) : Prop :=
  ∃ order : List ι, order.Nodup ∧ (∀ i, i ∈ order ↔ s.pc i = .returned)
    ∧ s.stream = order.flatMap data

/-- `send` accepts all the bytes it is offered. -/
def AcceptsAll (data : ι → Bytes) (_ : TcpSocket ι) : Label ι → Prop
  | .send i writeSize => writeSize = (data i).length
  | _ => True

end TcpSocket

end CppAmi
