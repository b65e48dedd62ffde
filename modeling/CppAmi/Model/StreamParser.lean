import CppAmi.Lib.Run
import CppAmi.Model.Defs

/-!
# `StreamParser`

The bytes of the AMI connection arrive in chunks cut anywhere. The parser takes
the version banner off the first chunk and cuts the rest into messages. The calls
it makes to its two callbacks are recorded in the state, in order.
-/

namespace CppAmi

structure StreamParser where
  firstEvent : Bool := true
  eventBuf : Bytes := []
  /-- What `set_ami_version_` was called with. -/
  versions : List Bytes := []
  /-- What `dispatch_` was called with. -/
  dispatched : List Bytes := []
  deriving DecidableEq, Repr

namespace StreamParser

/-- The `while` loop of `process_chunk`, allowed `fuel` iterations. -/
def dispatchLoop : Nat → StreamParser → Option Nat → Except Fault StreamParser
  | 0, _, _ => .error .diverged
  | _ + 1, p, none => .ok p
  | fuel + 1, p, some loc =>
    let eomLoc := loc + EOM.length
    if eomLoc = p.eventBuf.length then
      -- `event_buf_` is moved into the callback, which leaves it empty
      .ok { p with dispatched := p.dispatched ++ [p.eventBuf], eventBuf := [] }
    else do
      let event ← substr p.eventBuf 0 (some eomLoc)
      let rest ← erase p.eventBuf 0 eomLoc
      dispatchLoop fuel { p with dispatched := p.dispatched ++ [event], eventBuf := rest }
        (find rest EOM 0)

/-- `process_chunk` below the banner: buffer the chunk and dispatch what is complete. -/
def parseEvents (p : StreamParser) (streamChunk : Bytes) : Except Fault StreamParser :=
  if p.eventBuf = [] then
    dispatchLoop (streamChunk.length + 1) { p with eventBuf := streamChunk }
      (find streamChunk EOM 0)
  else
    let scanPosStart :=
      if p.eventBuf.length < EOM.length then 0 else p.eventBuf.length - EOM.length + 1
    let buf := p.eventBuf ++ streamChunk
    dispatchLoop (buf.length + 1) { p with eventBuf := buf } (find buf EOM scanPosStart)

def processChunk (p : StreamParser) (streamChunk : Bytes) : Except Fault StreamParser :=
  if p.firstEvent then do
    let eorLoc := find streamChunk EOR 0
    let version ← substr streamChunk 0 eorLoc
    let p := { p with firstEvent := false, versions := p.versions ++ [version] }
    -- `eor_loc` is not compared with npos before it is used
    let eorLoc := advance eorLoc 2
    if streamChunk.length = eorLoc then .ok p
    else do
      let streamChunk ← erase streamChunk 0 eorLoc
      parseEvents p streamChunk
  else parseEvents p streamChunk

/-- `process_chunk` on one chunk after the other. -/
def processChunks : StreamParser → List Bytes → Except Fault StreamParser :=
  Run.run processChunk

end StreamParser

end CppAmi
