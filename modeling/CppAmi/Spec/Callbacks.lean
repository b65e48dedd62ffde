import CppAmi.Model.Callbacks

/-!
# What a callback is to be called with

Seen from one key there are three things that happen: a callback is added, the key is
removed, and a message is handed to all callbacks. `Listener` says what has been heard
under the key when these happen one after the other.
-/

namespace CppAmi

/-- What happens to the callbacks of a connection. -/
inductive CallbackOp (κ : Type) where
  | add (id : Bytes) (callback : κ)
  | remove (key : Bytes)
  /-- All callbacks are called with a message. -/
  | broadcast

/-- A key, as one who listens under it knows it. -/
structure Listener (κ : Type) where
  callback : Option κ := none
  /-- How many messages there have been. -/
  round : Nat := 0
  /-- Which callback was called, in which round. -/
  heard : List (κ × Nat) := []

namespace Listener

variable {κ : Type}

def step (key : Bytes) (l : Listener κ) : CallbackOp κ → Listener κ
  -- a key that is there keeps its callback
  | .add id callback =>
    if id = key then { l with callback := l.callback.or (some callback) } else l
  | .remove key' => if key' = key then { l with callback := none } else l
  | .broadcast =>
    { l with
      round := l.round + 1,
      heard := l.heard ++ (l.callback.map fun callback => (callback, l.round)).toList }

/-- What has been heard under a key. -/
def of (key : Bytes) (ops : List (CallbackOp κ)) : Listener κ := ops.foldl (step key) {}

end Listener

namespace Callbacks

variable {ι κ : Type}

/-- What is seen of a turn where nobody knows of callbacks. -/
def Label.seen : Label ι κ → Option (CppAmi.Label ι)
  | .world l => some l
  | _ => none

/-- The callback does not call the connection. -/
def Returning (_ : Callbacks ι κ) (l : Label ι κ) : Prop := ∀ nested, l ≠ .nest nested

/-- A turn of `dispatch_handler`, or of a callback that goes on. -/
def Label.handler : Label ι κ → Bool
  | .lock _ | .call | .nestedReturns | .leave | .unlock => true
  | _ => false

/-- What a turn is to the callbacks. -/
def Label.op : Label ι κ → Option (CallbackOp κ)
  | .addCallback id callback => some (.add id callback)
  | .removeCallback key => some (.remove key)
  | .lock _ => some .broadcast
  | _ => none

/-- The calls that the handler has still to make in the loop it is in. -/
def owed (s : Callbacks ι κ) : List (Invocation κ) :=
  match s.handler with
  | .idle => []
  | .looping dict rest | .calling dict rest _ =>
    rest.map fun entry =>
      { key := entry.1, callback := entry.2, dict := dict, round := s.handled - 1 }

/-- The calls under a key. -/
def callsUnder (key : Bytes) (log : List (Invocation κ)) : List (κ × Nat) :=
  (log.filter fun v => v.key = key).map fun v => (v.callback, v.round)

/-- A callback is waiting for what it has called. -/
def Waits (s : Callbacks ι κ) (nested : Nested ι) : Prop :=
  ∃ dict rest, s.handler = .calling dict rest (some nested)

/-- The call that a callback waits for is still running. -/
def Running (s : Callbacks ι κ) : Nested ι → Prop
  | .lock => True
  | .invoke i =>
    match s.world.pc i with
    | .returned _ | .threw _ | .writeThrew _ => False
    | _ => True

/-- Since `s` the worker has taken no message and called no callback, and no thread has
changed the map. -/
structure Stalled (s s' : Callbacks ι κ) : Prop where
  delivered : s'.world.delivered = s.world.delivered
  log : s'.log = s.log
  callbacks : s'.callbacks = s.callbacks

end Callbacks

end CppAmi
