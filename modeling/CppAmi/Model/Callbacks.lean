import CppAmi.Model.Connection

/-!
# The callbacks of a `Connection`

`add_callback` and `remove_callback` change the map of callbacks, and `dispatch_handler`
goes through it and calls every one, all with `callbacks_mutex_` held, which is a plain
`std::mutex`. The handler runs in the dispatcher's worker, in the middle of
`dispatch_event`: until it returns no other message is taken.

A callback is application code. It may call `invoke`, `add_callback` or `remove_callback`
itself, and then it does not go on before these return.
-/

namespace CppAmi

/-- What a callback has called on the connection and waits for. -/
inductive Nested (ι : Type) where
  | invoke (i : ι)
  /-- `add_callback` or `remove_callback`, which lock `callbacks_mutex_`. -/
  | lock

/-- Where `dispatch_handler` has got to. Unless it is idle it holds `callbacks_mutex_`. -/
inductive HandlerPc (ι κ : Type) where
  | idle
  /-- In the loop, with the entries that are still to come. -/
  | looping (dict : Event) (rest : List (Bytes × κ))
  /-- A callback runs. -/
  | calling (dict : Event) (rest : List (Bytes × κ)) (nested : Option (Nested ι))

/-- A call of a callback. -/
structure Invocation (κ : Type) where
  key : Bytes
  callback : κ
  dict : Event
  /-- Ghost: which call of `dispatch_handler` it was made in. -/
  round : Nat

structure Callbacks (ι κ : Type) where
  world : World ι := {}
  /-- `callbacks_`. -/
  callbacks : UMap κ := ∅
  handler : HandlerPc ι κ := .idle
  /-- How many of the `notified` messages the handler was called with. -/
  handled : Nat := 0
  log : List (Invocation κ) := []

namespace Callbacks

inductive Label (ι κ : Type) where
  | world (l : CppAmi.Label ι)
  /-- `add_callback(callback)` of a thread; `id` is what `create_uuid()` returns. -/
  | addCallback (id : Bytes) (callback : κ)
  | removeCallback (key : Bytes)
  /-- `dispatch_handler` begins, and will go through the map in this order. -/
  | lock (order : List Bytes)
  /-- The next callback is called. -/
  | call
  /-- The callback calls the connection. -/
  | nest (nested : Nested ι)
  /-- What the callback called has returned, or has thrown what the callback catches. -/
  | nestedReturns
  /-- It has thrown, and the callback does not catch it. -/
  | nestedThrows
  /-- The callback returns. -/
  | leave
  /-- `dispatch_handler` returns. -/
  | unlock

variable {ι κ : Type} [DecidableEq ι]

/-- The worker is not in `dispatch_handler`, and not about to be. -/
def Free (s : Callbacks ι κ) : Prop :=
  match s.handler with
  | .idle => s.handled = s.world.dispatcher.notified.length
  | _ => False

instance (s : Callbacks ι κ) : Decidable s.Free := by
  unfold Free
  split <;> infer_instance

/-- The entries of the map in an order. -/
def entries (s : Callbacks ι κ) (order : List Bytes) : List (Bytes × κ) :=
  order.filterMap fun key => (s.callbacks.lookup key).map fun callback => (key, callback)

/-- A turn changes the world. -/
def turn (calls : ι → Call) (s : Callbacks ι κ) (l : CppAmi.Label ι) :
    Except Stop (Callbacks ι κ) := do
  let world ← s.world.step calls l
  .ok { s with world := world }

def step (calls : ι → Call) (s : Callbacks ι κ) : Label ι κ → Except Stop (Callbacks ι κ)
  | .world .dispatch => if s.Free then s.turn calls .dispatch else .error .disabled
  | .world l => s.turn calls l
  | .addCallback id callback =>
    match s.handler with
    | .idle => .ok { s with callbacks := s.callbacks.emplace id callback }
    | _ => .error .disabled
  | .removeCallback key =>
    match s.handler with
    | .idle => .ok { s with callbacks := s.callbacks.erase key }
    | _ => .error .disabled
  | .lock order =>
    match s.handler, s.world.dispatcher.notified[s.handled]? with
    | .idle, some dict =>
      if order.Perm s.callbacks.keys then
        .ok { s with handler := .looping dict (s.entries order), handled := s.handled + 1 }
      else .error .disabled
    | _, _ => .error .disabled
  | .call =>
    match s.handler with
    | .looping dict ((key, callback) :: rest) =>
      .ok { s with
        handler := .calling dict rest none,
        log := s.log ++ [{ key := key, callback := callback, dict := dict,
                           round := s.handled - 1 }] }
    | _ => .error .disabled
  | .nest nested =>
    match s.handler, nested with
    | .calling dict rest none, .invoke i =>
      match s.world.pc i with
      | .start => .ok { s with handler := .calling dict rest (some (.invoke i)) }
      | _ => .error .disabled
    | .calling dict rest none, .lock =>
      .ok { s with handler := .calling dict rest (some .lock) }
    | _, _ => .error .disabled
  | .nestedReturns =>
    match s.handler with
    | .calling dict rest (some (.invoke i)) =>
      match s.world.pc i with
      | .returned _ | .threw _ | .writeThrew _ =>
        .ok { s with handler := .calling dict rest none }
      | _ => .error .disabled
    -- the mutex is held by the thread that waits for it
    | _ => .error .disabled
  | .nestedThrows =>
    match s.handler with
    | .calling _ _ (some (.invoke i)) =>
      match s.world.pc i with
      -- neither the handler nor the worker catches it
      | .threw err | .writeThrew err => .error (.fault (.throws err))
      | _ => .error .disabled
    | _ => .error .disabled
  | .leave =>
    match s.handler with
    | .calling dict rest none => .ok { s with handler := .looping dict rest }
    | _ => .error .disabled
  | .unlock =>
    match s.handler with
    | .looping _ [] => .ok { s with handler := .idle }
    | _ => .error .disabled

/-- A history of a connection with callbacks. -/
def runLabels (calls : ι → Call) (labels : List (Label ι κ)) : Except Stop (Callbacks ι κ) :=
  Run.run (step calls) {} labels

end Callbacks

end CppAmi
