import CppAmi.Lib.Run
import CppAmi.Model.Defs
import Mathlib.Data.Finset.Basic
import Mathlib.Logic.Function.Basic

/-!
# `TcpSocket::TcpSocket`, `open` and `~TcpSocket`

Any number of sockets are constructed and destroyed, each by a thread of its own, while the
rest of the process opens and closes descriptors as it likes. The kernel hands out any
descriptor that is not open, also one that was open before, and answers each call as it
likes.

`open` has two guards: one that closes `sock_fd` unless that is -1, and one that frees what
`getaddrinfo` has allocated. `setsockopt` is left out, since its result is not used.
-/

namespace CppAmi

/-- What the constructor throws. -/
inductive OpenError where
  | runtimeError (what : Bytes)
  | invalidArgument (what : Bytes)
  | outOfRange (what : Bytes)
  deriving DecidableEq

/-- `sa_family`. -/
inductive AddrFamily where
  | inet
  | inet6
  | other

/-- The arguments of the constructor. -/
structure Target where
  hostname : Bytes
  /-- What stands in memory behind the bytes that `hostname` views, as far as the next NUL. -/
  behind : Bytes := []
  port : UInt16 := 5038

/-- What `getaddrinfo` and `fmt::format` read at `hostname.data()`: they do not know its length. -/
def Target.data (target : Target) : Bytes :=
  (target.hostname ++ target.behind).takeWhile (· ≠ 0)

/-- Where the life of a socket has got to. -/
inductive SocketPc where
  | start
  /-- In `open`, behind `socket()`. -/
  | opened (sockFd : Int)
  /-- Behind `getaddrinfo()`, with an address of a family that is known. -/
  | resolved (sockFd : Int) (res : Nat)
  | constructed (sockFd : Int)
  | threw (err : OpenError)
  | destroyed

namespace SocketPc

/-- The descriptor there is to close; a constructor that throws may have `lost` it. -/
def descriptor (lost : Option Int) : SocketPc → Option Int
  | .opened sockFd | .resolved sockFd _ | .constructed sockFd => some sockFd
  | .threw _ => lost
  | .start | .destroyed => none

/-- The addresses there are to free. -/
def guarded : SocketPc → Option Nat
  | .resolved _ res => some res
  | _ => none

/-- The body of the constructor has not looked at its arguments. -/
def Unjudged : SocketPc → Prop
  | .constructed _ | .threw (.invalidArgument _) | .threw (.outOfRange _) => False
  | _ => True

end SocketPc

structure Sockets (ι : Type) where
  /-- The descriptors of the process that are open. -/
  fds : Finset Int := ∅
  /-- What `getaddrinfo` has allocated. -/
  infos : Finset Nat := ∅
  pc : ι → SocketPc := fun _ => .start
  /-- The descriptors of the rest of the process. -/
  other : Nat → Option Int := fun _ => none
  /-- Ghost: the descriptor that a constructor has opened and not closed. -/
  lost : ι → Option Int := fun _ => none

namespace Sockets

inductive Label (ι : Type) where
  | socket (i : ι) (sockFd : Int)
  | socketFails (i : ι) (what : Bytes)
  /-- `getaddrinfo` allocates `res`; the family is that of `ai_addr`, if that is not null. -/
  | getaddrinfo (i : ι) (res : Nat) (family : Option AddrFamily)
  | getaddrinfoFails (i : ι)
  | connect (i : ι)
  | connectFails (i : ι) (what : Bytes)
  | destroy (i : ι)
  | otherOpen (n : Nat) (fd : Int)
  | otherClose (n : Nat)

variable {ι : Type} [DecidableEq ι]

/-- `close(sock_fd)`, and what the guard of `sock_fd` does. -/
def close (s : Sockets ι) (sockFd : Int) : Sockets ι :=
  if sockFd = -1 then s else { s with fds := s.fds.erase sockFd }

def freeaddrinfo (s : Sockets ι) (res : Nat) : Sockets ι :=
  { s with infos := s.infos.erase res }

def goto (s : Sockets ι) (i : ι) (pc : SocketPc) : Sockets ι :=
  { s with pc := Function.update s.pc i pc }

/-- The body of the constructor, when `open` has returned. Its destructor does not run if it
throws. -/
def construct (target : Target) (s : Sockets ι) (i : ι) (sockFd : Int) : Sockets ι :=
  if target.hostname = [] then
    { s.goto i (.threw (.invalidArgument (ascii "Invalid hostname"))) with
      lost := Function.update s.lost i (some sockFd) }
  else if target.port = 0 then
    { s.goto i (.threw (.outOfRange (ascii "Invalid port"))) with
      lost := Function.update s.lost i (some sockFd) }
  else s.goto i (.constructed sockFd)

/-- A descriptor that the kernel can hand out. -/
def Fresh (s : Sockets ι) (fd : Int) : Prop := 0 ≤ fd ∧ fd ∉ s.fds

instance (s : Sockets ι) (fd : Int) : Decidable (s.Fresh fd) :=
  inferInstanceAs (Decidable (0 ≤ fd ∧ fd ∉ s.fds))

def step (targets : ι → Target) (s : Sockets ι) : Label ι → Except Unit (Sockets ι)
  | .socket i sockFd =>
    match s.pc i with
    | .start =>
      if s.Fresh sockFd then .ok { s.goto i (.opened sockFd) with fds := insert sockFd s.fds }
      else .error ()
    | _ => .error ()
  | .socketFails i what =>
    match s.pc i with
    | .start => .ok (s.goto i (.threw (.runtimeError (ascii "Error opening socket: " ++ what))))
    | _ => .error ()
  | .getaddrinfo i res family =>
    match s.pc i with
    | .opened sockFd =>
      if res ∈ s.infos then .error ()
      else
        let s := { s with infos := insert res s.infos }
        match family with
        | none =>
          .ok (((s.freeaddrinfo res).close sockFd).goto i
            (.threw (.runtimeError (ascii "Invalid hostname " ++ (targets i).data))))
        | some .other =>
          .ok (((s.freeaddrinfo res).close sockFd).goto i
            (.threw (.runtimeError
              (ascii "Invalid address for hostname " ++ (targets i).data))))
        | some .inet | some .inet6 => .ok (s.goto i (.resolved sockFd res))
    | _ => .error ()
  | .getaddrinfoFails i =>
    match s.pc i with
    | .opened sockFd =>
      .ok ((s.close sockFd).goto i
        (.threw (.runtimeError (ascii "Invalid hostname " ++ (targets i).data))))
    | _ => .error ()
  | .connect i =>
    match s.pc i with
    | .resolved sockFd res =>
      -- `open` has set its `sock_fd` to -1 when the guards run
      .ok (((s.freeaddrinfo res).close (-1)).construct (targets i) i sockFd)
    | _ => .error ()
  | .connectFails i what =>
    match s.pc i with
    | .resolved sockFd res =>
      .ok (((s.freeaddrinfo res).close sockFd).goto i
        (.threw (.runtimeError (ascii "Unable to connect socket: " ++ what))))
    | _ => .error ()
  | .destroy i =>
    match s.pc i with
    | .constructed sockFd => .ok ((s.close sockFd).goto i .destroyed)
    | _ => .error ()
  | .otherOpen n fd =>
    if s.other n = none ∧ s.Fresh fd then
      .ok { s with fds := insert fd s.fds, other := Function.update s.other n (some fd) }
    else .error ()
  | .otherClose n =>
    match s.other n with
    | some fd => .ok { s with fds := s.fds.erase fd, other := Function.update s.other n none }
    | none => .error ()

def runLabels (targets : ι → Target) (labels : List (Label ι)) : Except Unit (Sockets ι) :=
  Run.run (step targets) {} labels

/-! ## What is said about the sockets -/

/-- The descriptor that a socket has to close. -/
def descriptor (s : Sockets ι) (i : ι) : Option Int := (s.pc i).descriptor (s.lost i)

/-- Who has to close a descriptor: a socket or the rest of the process. -/
def holds (s : Sockets ι) : ι ⊕ Nat → Option Int := Sum.elim s.descriptor s.other

/-- What `open` has to free. -/
def guarded (s : Sockets ι) (i : ι) : Option Nat := (s.pc i).guarded

/-- The body of the constructor has thrown. -/
def Rejected (s : Sockets ι) (i : ι) : Prop :=
  s.pc i = .threw (.invalidArgument (ascii "Invalid hostname"))
    ∨ s.pc i = .threw (.outOfRange (ascii "Invalid port"))

/-- A constructor has not begun or has thrown, or the socket was destroyed. -/
def Over (s : Sockets ι) (i : ι) : Prop :=
  match s.pc i with
  | .start | .threw _ | .destroyed => True
  | _ => False

end Sockets

end CppAmi
