import CppAmi.Model.Worker

/-!
# The receive pipeline of a `Connection`

The reader thread hands the chunks it reads to `add_buf`, the worker of `StreamParser`
hands the messages it dispatches to `add_event`, and the worker of `EventDispatcher`
hands them to `dispatch_event`. `~Connection` stops and joins the three in that order.
-/

namespace CppAmi

structure Pipeline where
  /-- Ghost: the chunks `add_buf` was called with. -/
  received : List Bytes := []
  /-- `reader_.reset()` has returned. -/
  readerJoined : Bool := false
  streamParser : Worker Bytes StreamParser := StreamParser.startWorkThread
  /-- How many of the dispatched messages have gone through `add_event`. -/
  added : Nat := 0
  dispatcher : Worker Bytes (List Bytes) := EventDispatcher.startWorkThread

namespace Pipeline

inductive Label where
  | addBuf (buf : Bytes)
  | joinReader
  /-- A turn of the parser's worker or of `stream_parser_.reset()`. -/
  | streamParser (act : Worker.Act)
  /-- The next `add_event` of the parser's worker. -/
  | addEvent
  /-- A turn of the dispatcher's worker or of `dispatcher_.reset()`. -/
  | dispatcher (act : Worker.Act)

/-- What was passed to `dispatch_event`. -/
def passed (c : Pipeline) : List Bytes := c.dispatcher.object

/-- The first message that `process_chunk` has yet to pass to `add_event`. -/
def outgoing (c : Pipeline) : Option Bytes := c.streamParser.object.dispatched[c.added]?

/-- Both workers are joined. What `~EventDispatcher` does behind the join is not a turn. -/
def Closed (c : Pipeline) : Prop := c.dispatcher.stopper = .joined

/--
`~Connection` stops the parser when the reader is joined. The parser's worker is in
`process_chunk` until its messages are added.
-/
def parserReady (c : Pipeline) (act : Worker.Act) : Bool :=
  if act.stops then c.readerJoined else c.outgoing.isNone

/-- `~Connection` stops the dispatcher when the parser is joined. -/
def dispatcherReady (c : Pipeline) (act : Worker.Act) : Bool :=
  if act.stops then c.streamParser.stopper = .joined else true

def step (c : Pipeline) : Label → Except Stop Pipeline
  | .addBuf buf =>
    if c.readerJoined then .error .disabled
    else do
      let streamParser ← StreamParser.threadStep c.streamParser (.add buf)
      .ok { c with received := c.received ++ [buf], streamParser := streamParser }
  | .joinReader => if c.readerJoined then .error .disabled else .ok { c with readerJoined := true }
  | .streamParser act =>
    if c.parserReady act then do
      let streamParser ← StreamParser.threadStep c.streamParser (.act act)
      .ok { c with streamParser := streamParser }
    else .error .disabled
  | .addEvent =>
    match c.outgoing with
    | some event => do
      let dispatcher ← EventDispatcher.threadStep c.dispatcher (.add event)
      .ok { c with added := c.added + 1, dispatcher := dispatcher }
    | none => .error .disabled
  | .dispatcher act =>
    if c.dispatcherReady act then do
      let dispatcher ← EventDispatcher.threadStep c.dispatcher (.act act)
      .ok { c with dispatcher := dispatcher }
    else .error .disabled

end Pipeline

end CppAmi
