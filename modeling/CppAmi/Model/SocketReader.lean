import CppAmi.Lib.Run
import CppAmi.Model.Defs

/-!
# `TcpSocket::read` and the thread that calls it

`SocketReader` reads from its socket until it is stopped and hands what it reads to its
callback. What has come in and was not read yet is in the receive queue of the kernel,
and the kernel answers `poll` and `recv`: the flags it reports, how many bytes it gives,
or that the call failed. More bytes can come in between the two.
-/

namespace CppAmi

/-- Flags of `pollfd::revents`. -/
def POLLIN : BitVec 16 := 0x001

def POLLERR : BitVec 16 := 0x008

def POLLHUP : BitVec 16 := 0x010

inductive PollResult where
  | failed (what : Bytes)
  | timeout
  | ready (revents : BitVec 16)

inductive RecvResult where
  | failed (what : Bytes)
  | received (bytesReceived : Nat)

/-- `recv` gives no more than it is asked for, no more than there is, and something if there is. -/
def RecvResult.Legal (bufSize : Nat) (queue : Bytes) : RecvResult → Prop
  | .failed _ => True
  | .received n => n ≤ bufSize ∧ n ≤ queue.length ∧ (queue ≠ [] → 1 ≤ n)

instance (bufSize : Nat) (queue : Bytes) : (received : RecvResult) →
    Decidable (received.Legal bufSize queue)
  | .failed _ => inferInstanceAs (Decidable True)
  | .received n =>
    inferInstanceAs (Decidable (n ≤ bufSize ∧ n ≤ queue.length ∧ (queue ≠ [] → 1 ≤ n)))

namespace TcpSocket

def readError (what : Bytes) : Fault :=
  .throws (.runtimeError (ascii "Error reading socket: " ++ what))

/-- The size of the buffer of `read(buf_size)`, which is what `recv` is asked for. -/
def clampBufSize (bufSize : Nat) : Nat := min (max bufSize 1024) 65535

/-- `read()`: the text that is returned, and what is left in the queue. -/
def read (sockFd : Int) (queue : Bytes) (polled : PollResult) (received : RecvResult) :
    Except Fault (Bytes × Bytes) :=
  if sockFd = -1 then .ok ([], queue)
  else
    match polled with
    | .failed what => .error (readError what)
    | .timeout => .ok ([], queue)
    | .ready revents =>
      -- any other flag beside `POLLIN` makes the two differ
      if revents ≠ POLLIN then .ok ([], queue)
      else
        match received with
        | .failed what => .error (readError what)
        | .received n => .ok (queue.take n, queue.drop n)

end TcpSocket

structure SocketReader where
  sockFd : Int
  threadSpin : Bool := true
  /-- The receive queue of the kernel. -/
  queue : Bytes := []
  /-- What the callback was called with. -/
  chunks : List Bytes := []
  /-- Ghost: all the bytes that came in. -/
  offered : Bytes := []
  /-- Ghost: how many of the calls of `read` could have read something. -/
  readable : Nat := 0

namespace SocketReader

/-- `buf_size` is left at its default. -/
def bufSize : Nat := TcpSocket.clampBufSize 4096

inductive Label where
  /-- Bytes come in. -/
  | arrive (bytes : Bytes)
  /-- An iteration of `work_thread`, with the bytes that come in between `poll` and `recv`. -/
  | read (polled : PollResult) (arrived : Bytes) (received : RecvResult)
  /-- `stop_work_thread` clears the flag. -/
  | stop

/-- `poll` reports `POLLIN`, among whatever else. -/
def reportsPollin : PollResult → Bool
  | .ready revents => revents &&& POLLIN ≠ 0
  | _ => false

/-- `POLLIN` is reported, there is something in the queue, and `recv` does not fail. -/
def isReadable (sockFd : Int) (queue : Bytes) (polled : PollResult) : RecvResult → Bool
  | .received _ => sockFd ≠ -1 && reportsPollin polled && !queue.isEmpty
  | .failed _ => false

/-- More bytes have come in. -/
def arrive (r : SocketReader) (bytes : Bytes) : SocketReader :=
  { r with queue := r.queue ++ bytes, offered := r.offered ++ bytes }

/-- What the loop does with the text that was read. -/
def handOn (r : SocketReader) (buf : Bytes) : SocketReader :=
  if buf = [] then r else { r with chunks := r.chunks ++ [buf] }

/-- A turn of the thread, of the kernel or of the thread that stops it. -/
def step (r : SocketReader) : Label → Except Stop SocketReader
  | .arrive bytes => .ok (r.arrive bytes)
  | .read polled arrived received =>
    let r := r.arrive arrived
    if r.threadSpin ∧ received.Legal bufSize r.queue then
      match TcpSocket.read r.sockFd r.queue polled received with
      | .ok (buf, queue) =>
        .ok ({ r with
          queue := queue,
          readable := r.readable
            + if isReadable r.sockFd r.queue polled received then 1 else 0 }.handOn buf)
      -- nothing catches what is thrown in the thread
      | .error f => .error (.fault f)
    else .error .disabled
  | .stop => .ok { r with threadSpin := false }

/-! ## What is said about the reads -/

/-- Where something can be read, `read` returns it: the front of the queue, and not nothing. -/
def Drains (r : SocketReader) : Label → Prop
  | .read polled arrived received =>
    isReadable r.sockFd (r.queue ++ arrived) polled received →
      ∃ buf rest, TcpSocket.read r.sockFd (r.queue ++ arrived) polled received = .ok (buf, rest)
        ∧ buf ≠ [] ∧ buf ++ rest = r.queue ++ arrived
  | _ => True

/-- The callback has got the bytes that are not in the queue any more, in order, and one text
for every read that could read something. -/
def HandedOn (r : SocketReader) : Prop :=
  r.chunks.flatten ++ r.queue = r.offered ∧ r.chunks.length = r.readable

/-- Where something can be read, `poll` reports `POLLIN` and nothing else. -/
def PollinAlone (r : SocketReader) : Label → Prop
  | .read polled arrived received =>
    isReadable r.sockFd (r.queue ++ arrived) polled received → polled = .ready POLLIN
  | _ => True

end SocketReader

end CppAmi
