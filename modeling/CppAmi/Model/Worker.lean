import CppAmi.Model.EventDispatcher
import CppAmi.Model.StreamParser

/-!
# The worker threads of `StreamParser` and `EventDispatcher`

The two classes have the same `work_thread`, `stop_work_thread` and queue, and differ
in what is queued and in what the worker does with it. A `Worker` is the state of such
a class, and `Worker.step` one atomic turn of the worker, of the thread that stops it,
or of a thread that calls `add_buf` or `add_event`.

`wait` evaluates its predicate with the mutex held. When the predicate is false it
releases the mutex and blocks in one step, and only a notification that comes after
that step reaches it.
-/

namespace CppAmi

/-- Where `work_thread` has got to. -/
inductive WorkerPc where
  /-- At `while (thread_run_)`. -/
  | checking
  /-- In `wait`, about to lock the mutex and evaluate the predicate. -/
  | evaluating
  /-- In `wait`, the predicate was false. It holds the mutex. -/
  | deciding
  /-- In `wait`, until it is notified. -/
  | blocked
  /-- In the loop over the local vector. -/
  | handling
  /-- Behind the `while`. -/
  | leaving
  /-- In the loop over the shared vector. It holds the mutex. -/
  | draining
  | done
  deriving DecidableEq, Repr

/-- Where `stop_work_thread` has got to. -/
inductive StopperPc where
  | running
  /-- `thread_run_ = false` is done. -/
  | stored
  /-- `notify_one` is done. -/
  | joining
  | joined
  deriving DecidableEq, Repr

structure Worker (α ω : Type) where
  threadRun : Bool := true
  /-- `stream_chunks_` or `events_`. -/
  queue : List α := []
  /-- The local vector of `work_thread`. -/
  batch : List α := []
  pc : WorkerPc := .checking
  stopper : StopperPc := .running
  /-- What the worker's calls have made of the object. -/
  object : ω

namespace Worker

/-- A turn of the worker or of the thread that stops it. -/
inductive Act where
  | check
  | evaluate
  | block
  | spuriousWake
  /-- One iteration of the loop over the local vector. -/
  | handle
  /-- The end of that loop. -/
  | clear
  | lock
  /-- One iteration of the loop over the shared vector. -/
  | drain
  | finish
  /-- `thread_run_ = false`. -/
  | store
  | notify
  | join
  deriving DecidableEq, Repr

/-- A turn of `stop_work_thread`. -/
def Act.stops : Act → Bool
  | .store | .notify | .join => true
  | _ => false

inductive Label (α : Type) where
  /-- `add_buf` or `add_event`. -/
  | add (a : α)
  | act (act : Act)

variable {α ω : Type}

/-- The worker holds the mutex of the queue. -/
def HoldsMutex (w : Worker α ω) : Prop := w.pc = .deciding ∨ w.pc = .draining

instance (w : Worker α ω) : Decidable w.HoldsMutex :=
  inferInstanceAs (Decidable (_ ∨ _))

/-- `thread_cv_.notify_one()` -/
def notifyOne (w : Worker α ω) : Worker α ω :=
  if w.pc = .blocked then { w with pc := .evaluating } else w

/-- `add_buf`, `add_event`. -/
def add (w : Worker α ω) (a : α) : Except Stop (Worker α ω) :=
  if w.HoldsMutex then .error .disabled
  else .ok { w with queue := w.queue ++ [a] }.notifyOne

variable (work : ω → α → Except Fault ω)

/-- The worker takes `a`, and leaves the vectors as they are in `w`. -/
def process (w : Worker α ω) (a : α) : Except Stop (Worker α ω) :=
  match work w.object a with
  | .ok object => .ok { w with object := object }
  | .error f => .error (.fault f)

def actStep (w : Worker α ω) : Act → Except Stop (Worker α ω)
  | .check =>
    if w.pc = .checking then
      .ok { w with pc := if w.threadRun then .evaluating else .leaving }
    else .error .disabled
  | .evaluate =>
    if w.pc = .evaluating then
      if !w.threadRun || !w.queue.isEmpty then
        .ok { w with queue := w.batch, batch := w.queue, pc := .handling }
      else .ok { w with pc := .deciding }
    else .error .disabled
  | .block => if w.pc = .deciding then .ok { w with pc := .blocked } else .error .disabled
  | .spuriousWake => if w.pc = .blocked then .ok { w with pc := .evaluating } else .error .disabled
  | .handle =>
    match w.pc, w.batch with
    | .handling, a :: rest => process work { w with batch := rest } a
    | _, _ => .error .disabled
  | .clear =>
    match w.pc, w.batch with
    | .handling, [] => .ok { w with pc := .checking }
    | _, _ => .error .disabled
  | .lock => if w.pc = .leaving then .ok { w with pc := .draining } else .error .disabled
  | .drain =>
    -- the mutex is held: nobody sees that the elements leave the vector one by one
    match w.pc, w.queue with
    | .draining, a :: rest => process work { w with queue := rest } a
    | _, _ => .error .disabled
  | .finish =>
    match w.pc, w.queue with
    | .draining, [] => .ok { w with pc := .done }
    | _, _ => .error .disabled
  | .store =>
    if w.stopper = .running then .ok { w with threadRun := false, stopper := .stored }
    else .error .disabled
  | .notify =>
    if w.stopper = .stored then .ok { w with stopper := .joining }.notifyOne
    else .error .disabled
  | .join =>
    if w.stopper = .joining ∧ w.pc = .done then .ok { w with stopper := .joined }
    else .error .disabled

def step (w : Worker α ω) : Label α → Except Stop (Worker α ω)
  | .add a => w.add a
  | .act a => w.actStep work a

/-! ## What is said about a worker -/

/-- What the object becomes once the worker has processed all it has been given. -/
def outcome (w : Worker α ω) : Except Fault ω := Run.run work w.object (w.batch ++ w.queue)

/-- The stopper is in `join()`, and the worker waits for a notification. -/
def Stranded (w : Worker α ω) : Prop :=
  w.threadRun = false ∧ w.stopper = .joining ∧ w.pc = .blocked

/-- `stop_work_thread` does not notify between the worker's predicate and its block. -/
def NotifiesInTime (w : Worker α ω) : Label α → Prop
  | .act .notify => w.pc ≠ .deciding
  | _ => True

end Worker

namespace StreamParser

/-- The worker of a new `StreamParser`. -/
def startWorkThread : Worker Bytes StreamParser := { object := {} }

def threadStep : Worker Bytes StreamParser → Worker.Label Bytes →
    Except Stop (Worker Bytes StreamParser) :=
  Worker.step processChunk

end StreamParser

namespace EventDispatcher

/--
The worker of a new `EventDispatcher`. Other threads change the maps that
`dispatch_event` works on as well, so its object is the list of the buffers that
`dispatch_event` was called with.
-/
def startWorkThread : Worker Bytes (List Bytes) := { object := [] }

def threadStep : Worker Bytes (List Bytes) → Worker.Label Bytes →
    Except Stop (Worker Bytes (List Bytes)) :=
  Worker.step fun passed eventBuf => .ok (passed ++ [eventBuf])

end EventDispatcher

end CppAmi
