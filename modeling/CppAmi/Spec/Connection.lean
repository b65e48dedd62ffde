import CppAmi.Model.System
import CppAmi.Spec.Session

/-!
# What a whole connection is compared with

The messages of a connection are those that are complete in the bytes that were passed to
`add_buf`. Seen from the threads that call `invoke` they are what the server has sent, and
the statements about a whole connection say so: a `World` stands for it.
-/

namespace CppAmi

/-- What the parser dispatches on the chunks. -/
def StreamParser.framedMessages (chunks : List Bytes) : List Bytes :=
  match StreamParser.processChunks {} chunks with
  | .ok p => p.dispatched
  | .error _ => []

/-- What `dispatch_event` makes of the buffers. -/
def KeyValDict.parseAll (bufs : List Bytes) : List KeyValDict :=
  bufs.filterMap fun buf => (KeyValDict.ofMessage buf).toOption

namespace Connection

variable {ι : Type}

/-- The messages that are complete in what was passed to `add_buf`. -/
def events (c : Connection ι) : List Event :=
  KeyValDict.parseAll (StreamParser.framedMessages c.pipeline.received)

/-- The messages that `dispatch_event` was called with. -/
def dispatched (c : Connection ι) : List Event := KeyValDict.parseAll c.pipeline.passed

/-- The messages with a call's ActionID in all that was read from the socket. -/
def answersTo (calls : ι → Call) (c : Connection ι) (i : ι) : List Event :=
  (KeyValDict.parseAll (StreamParser.framedMessages c.reader.chunks)).filter fun m =>
    m.actionId = some (calls i).actionId

/-- The messages that the next `add_buf` will complete. -/
def nextEvents (c : Connection ι) : List Event :=
  match c.reader.chunks[c.handed]? with
  | some buf =>
    KeyValDict.parseAll ((StreamParser.framedMessages (c.pipeline.received ++ [buf])).drop
      (StreamParser.framedMessages c.pipeline.received).length)
  | none => []

/-- Every write succeeds, and a message with a call's ActionID is only complete once the call
has written its action. -/
def Answering (calls : ι → Call) (c : Connection ι) : Label ι → Prop
  | .invoke (.writeThrows _ _) => False
  | .addBuf => ∀ m ∈ c.nextEvents, ∀ i, m.actionId = some (calls i).actionId →
    (i, (calls i).action.toString) ∈ c.wire
  | _ => True

/-- The ActionID is registered only when no other call with it is in progress, and none has left
its pipe behind. -/
def Sequential (calls : ι → Call) (a : Bytes) (c : Connection ι) : Label ι → Prop
  | .invoke l => World.Sequential calls a c.calling l
  | _ => True

/-- Neither stop notifies between its worker's predicate and its block. -/
def NotifiesInTime (c : Connection ι) : Label ι → Prop
  | .streamParser act => c.pipeline.streamParser.NotifiesInTime (.act act)
  | .dispatcher act => c.pipeline.dispatcher.NotifiesInTime (.act act)
  | _ => True

/-- A turn of the workers, of a callback, or of `~Connection` when the reader was told to stop. -/
def Label.internal : Label ι → Bool
  | .reader _ | .invoke _ => false
  | _ => true

/-- A worker wakes up that nobody has notified. -/
def Label.spurious : Label ι → Bool
  | .streamParser .spuriousWake | .dispatcher .spuriousWake => true
  | _ => false

/-- A world that stands for a connection. `source n` is the call that the `n`-th message
answers. -/
structure StandsFor (source : Nat → Option ι) (w : World ι) (c : Connection ι) : Prop where
  dispatcher : w.dispatcher = c.dispatcher
  pc : w.pc = c.pc
  wire : w.wire = c.wire
  /-- What the server has sent is what is complete in the bytes. -/
  traffic : w.traffic.map Prod.snd = c.events
  delivered : w.delivered.map Prod.snd = c.dispatched
  source : ∀ n sm, w.traffic[n]? = some sm → sm.1 = source n

end Connection

end CppAmi
