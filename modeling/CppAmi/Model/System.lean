import CppAmi.Model.Connection
import CppAmi.Model.Pipeline
import CppAmi.Model.SocketReader

/-!
# A whole `Connection`

The reader's thread, the workers of `StreamParser` and `EventDispatcher`, the threads that
call `invoke` and the thread in `~Connection` take turns in any order. What comes in is
bytes: the kernel's queue, the chunks that `read` returns, the buffer of the parser and the
two queues of the workers are all here, as the modules on each of them have them.

The dispatcher's worker and the calls of `invoke` work on the same maps. So the pipeline
keeps which buffers it passed on, and the turn that passes one on is the turn in which
`dispatch_event` works on the maps.

The turns of `~Connection` end with the joins of the two workers. `cleanup_object`, which comes
behind them, is `EventDispatcher.destroy` on the state that is reached.
-/

namespace CppAmi

structure Connection (ι : Type) where
  reader : SocketReader
  /-- How many of the chunks that were read have gone through `add_buf`. -/
  handed : Nat := 0
  pipeline : Pipeline := {}
  dispatcher : EventDispatcher := {}
  pc : ι → Pc := fun _ => .start
  wire : List (ι × Bytes) := []

namespace Connection

inductive Label (ι : Type) where
  /-- A turn of the reader's thread outside its callback, of the kernel, or of the stop. -/
  | reader (l : SocketReader.Label)
  /-- The callback of the reader: `stream_parser_->add_buf(std::move(buf))`. -/
  | addBuf
  /-- `reader_.reset()` has joined the thread. -/
  | joinReader
  /-- A turn of the parser's worker or of `stream_parser_.reset()`. -/
  | streamParser (act : Worker.Act)
  /-- The next `add_event` of the parser's worker. -/
  | addEvent
  /-- A turn of the dispatcher's worker or of `dispatcher_.reset()`. -/
  | dispatcher (act : Worker.Act)
  /-- A turn of a call of `invoke`. -/
  | invoke (l : CppAmi.Label ι)

/-- What a call of `invoke` did. -/
def Label.seen {ι : Type} : Label ι → Option (CppAmi.Label ι)
  | .invoke l => some l
  | _ => none

variable {ι : Type} [DecidableEq ι]

/-- The reader's thread is not in its callback. -/
def Reading (c : Connection ι) : Prop := c.handed = c.reader.chunks.length

instance (c : Connection ι) : Decidable c.Reading := inferInstanceAs (Decidable (_ = _))

/-- The thread reads again when its callback has returned. -/
def readerReady (c : Connection ι) : SocketReader.Label → Bool
  | .read _ _ _ => c.Reading
  | _ => true

/-- A turn of the pipeline, with `dispatch_event` of what it passes on. -/
def flow (c : Connection ι) (l : Pipeline.Label) : Except Stop (Connection ι) := do
  let pipeline ← c.pipeline.step l
  let dispatcher ← World.lift (Run.run EventDispatcher.dispatchEvent c.dispatcher
    (pipeline.passed.drop c.pipeline.passed.length))
  .ok { c with pipeline := pipeline, dispatcher := dispatcher }

/-- What a call of `invoke` works on. -/
def calling (c : Connection ι) : World ι :=
  { dispatcher := c.dispatcher, pc := c.pc, wire := c.wire }

def step (calls : ι → Call) (c : Connection ι) : Label ι → Except Stop (Connection ι)
  | .reader l =>
    if c.readerReady l then do
      let reader ← c.reader.step l
      .ok { c with reader := reader }
    else .error .disabled
  | .addBuf =>
    match c.reader.chunks[c.handed]? with
    | some buf => do
      let c ← c.flow (.addBuf buf)
      .ok { c with handed := c.handed + 1 }
    | none => .error .disabled
  | .joinReader =>
    if c.reader.threadSpin = false ∧ c.Reading then c.flow .joinReader else .error .disabled
  | .streamParser act => c.flow (.streamParser act)
  | .addEvent => c.flow .addEvent
  | .dispatcher act => c.flow (.dispatcher act)
  | .invoke l =>
    if l.caller.isSome then do
      let w ← c.calling.step calls l
      .ok { c with dispatcher := w.dispatcher, pc := w.pc, wire := w.wire }
    else .error .disabled

/-- A connection on a socket, before the first byte and the first call. -/
def connected (sockFd : Int) : Connection ι := { reader := { sockFd := sockFd } }

/-- A history of a connection on a socket. -/
def runLabels (calls : ι → Call) (sockFd : Int) (labels : List (Label ι)) :
    Except Stop (Connection ι) :=
  Run.run (step calls) (connected sockFd) labels

end Connection

end CppAmi
