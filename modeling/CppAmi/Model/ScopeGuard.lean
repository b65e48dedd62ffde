import CppAmi.Lib.Run
import Mathlib.Logic.Function.Basic

/-!
# `util::ScopeGuard`

A guard holds a callback that its destructor invokes. The callbacks that are given to
constructors are numbered in that order, and so are the guards; what matters of a
callback is which one it is, and that it was invoked.
-/

namespace CppAmi

/-- What a `std::function<void()>` can hold here. -/
inductive Callback where
  | empty
  /-- The lambda that a guard is left with when it is moved from. -/
  | noop
  | given (n : Nat)
  deriving DecidableEq, Repr

structure ScopeGuard where
  callback : Callback := .empty
  deriving DecidableEq, Repr

/-- The guards of a program, and what was invoked. -/
structure Guards where
  guard : Nat → Option ScopeGuard := fun _ => none
  constructed : Nat := 0
  /-- How many callbacks were given to constructors. -/
  given : Nat := 0
  invoked : List Nat := []

namespace Guards

inductive Op where
  | construct
  | moveConstruct (right : Nat)
  /-- `left = std::move(right)`. -/
  | moveAssign (left right : Nat)
  | destroy (guard : Nat)

/-- Why an operation does not happen. -/
inductive Misuse where
  /-- There is no such guard, or not any more. -/
  | dead
  /-- `std::bad_function_call` in a destructor. -/
  | badFunctionCall
  deriving DecidableEq

def put (s : Guards) (i : Nat) (g : Option ScopeGuard) : Guards :=
  { s with guard := Function.update s.guard i g }

/-- `operator=(ScopeGuard &&)`. -/
def moveAssign (s : Guards) (left right : Nat) : Except Misuse Guards :=
  match s.guard left, s.guard right with
  | some _, some r =>
    -- `std::exchange` comes first, which matters when both are one guard
    let s := s.put right (some { callback := .noop })
    .ok (s.put left (some { callback := r.callback }))
  | _, _ => .error .dead

/-- A guard comes into being, with what its member initializers give it. -/
def construct (s : Guards) (g : ScopeGuard) : Guards :=
  { s.put s.constructed (some g) with constructed := s.constructed + 1 }

/-- `~ScopeGuard()`. -/
def destroy (s : Guards) (i : Nat) : Except Misuse Guards :=
  match s.guard i with
  | none => .error .dead
  | some g =>
    match g.callback with
    | .empty => .error .badFunctionCall
    | .noop => .ok (s.put i none)
    | .given n => .ok { s.put i none with invoked := s.invoked ++ [n] }

def step (s : Guards) : Op → Except Misuse Guards
  | .construct => .ok { s.construct { callback := .given s.given } with given := s.given + 1 }
  | .moveConstruct right =>
    match s.guard right with
    | none => .error .dead
    | some _ => (s.construct {}).moveAssign s.constructed right
  | .moveAssign left right => s.moveAssign left right
  | .destroy i => s.destroy i

/-! ## What is said about guards -/

/-- A guard owns a callback: it is the one the guard would invoke. -/
def Owns (s : Guards) (i n : Nat) : Prop := s.guard i = some { callback := .given n }

/-- No callback has been invoked that a guard owns. -/
def NotYet (s : Guards) : Prop := ∀ i n, s.Owns i n → n ∉ s.invoked

def AllDestroyed (s : Guards) : Prop := ∀ i, s.guard i = none

/-- A guard that is assigned to owns no callback, unless it is assigned to itself. -/
def TargetFree (s : Guards) : Op → Prop
  | .moveAssign left right => left ≠ right → ∀ n, ¬ s.Owns left n
  | _ => True

end Guards

end CppAmi
