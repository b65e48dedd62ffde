import CppAmi.Lib.Search
import Mathlib.Data.List.AList

/-!
# What the C++ standard library gives the program

The source works on `std::string`, `std::unordered_map` and `std::size_t`
positions. This module says what the operations it uses do, including where they
throw and where they would be undefined, so that every function of the source can
be written down with the failures it can really run into.
-/

namespace CppAmi

/-- `std::string`: a sequence of bytes. -/
abbrev Bytes := List UInt8

/-- A string literal of the source. -/
def ascii (s : String) : Bytes := s.toList.map fun c => UInt8.ofNat c.toNat

/-- End of message. -/
def EOM : Bytes := ascii "\r\n\r\n"

/-- End of record. -/
def EOR : Bytes := ascii "\r\n"

/-- Key/value separator. -/
def SEP : Bytes := ascii ": "

/-- The exceptions the program throws or stores in a future. -/
inductive Exn where
  | outOfRange
  | runtimeError (what : Bytes)
  /-- `std::future_error`: the promise went away unsatisfied. -/
  | brokenPromise
  /-- `std::future_error`: the promise was satisfied a second time. -/
  | promiseAlreadySatisfied
  deriving DecidableEq, Repr

/-- How a call can fail to return. -/
inductive Fault where
  | throws (e : Exn)
  /-- A `std::string_view` that reaches past the end of its buffer. -/
  | badView
  /-- Dereferencing an empty `std::unique_ptr`. -/
  | nullDeref
  | assertFailed
  /-- A loop still running after more iterations than its input has bytes. -/
  | diverged
  deriving DecidableEq, Repr

/-- Why a thread's turn does not happen: it cannot do that where it is, or the code fails. -/
inductive Stop where
  | disabled
  | fault (f : Fault)

/-! ## `std::size_t` positions

A position returned by `find` is `some i`, and `none` is `npos`. A real position is below
`max_size()`, so arithmetic on it never wraps; arithmetic on `npos` does.
-/

def npos : Nat := UInt64.size - 1

/-- `loc += k` on the result of a `find`. -/
def advance : Option Nat → Nat → Nat
  | some i, k => i + k
  | none, k => (npos + k) % UInt64.size

/-- `loc - k` on the result of a `find` that started at `k`. -/
def distance : Option Nat → Nat → Nat
  | some i, k => i - k
  | none, k => npos - k

/-! ## `std::string` and `std::string_view` -/

/-- `s.find(pat, pos)`. -/
def find (s pat : Bytes) (pos : Nat) : Option Nat := Search.findFrom pat s pos

/-- `s.substr(pos, count)`. -/
def substr (s : Bytes) (pos : Nat) : Option Nat → Except Fault Bytes
  | some count =>
    if pos ≤ s.length then .ok ((s.drop pos).take count) else .error (.throws .outOfRange)
  | none => if pos ≤ s.length then .ok (s.drop pos) else .error (.throws .outOfRange)

/-- What is left in `s` after `s.erase(pos, count)`. -/
def erase (s : Bytes) (pos count : Nat) : Except Fault Bytes :=
  if pos ≤ s.length then .ok (s.take pos ++ s.drop (pos + count)) else .error (.throws .outOfRange)

/-- The text behind `std::string_view(s.data() + pos, count)`. -/
def view (s : Bytes) (pos count : Nat) : Except Fault Bytes :=
  if pos + count ≤ s.length then .ok ((s.drop pos).take count) else .error .badView

@[simp] theorem substr_zero (s : Bytes) (n : Nat) : substr s 0 (some n) = .ok (s.take n) := by
  simp [substr]

@[simp] theorem substr_zero_npos (s : Bytes) : substr s 0 none = .ok s := by
  simp [substr]

@[simp] theorem erase_zero (s : Bytes) (n : Nat) : erase s 0 n = .ok (s.drop n) := by
  simp [erase]

@[simp] theorem advance_some (i k : Nat) : advance (some i) k = i + k := rfl

/-- `npos + 2` wraps around to one. -/
theorem advance_npos_two : advance none 2 = 1 := rfl

theorem EOM_ne_nil : EOM ≠ [] := by decide

theorem EOR_ne_nil : EOR ≠ [] := by decide

theorem SEP_ne_nil : SEP ≠ [] := by decide

@[simp] theorem length_EOM : EOM.length = 4 := rfl

@[simp] theorem length_EOR : EOR.length = 2 := rfl

@[simp] theorem length_SEP : SEP.length = 2 := rfl

/-! ## `std::unordered_map` -/

/-- `std::unordered_map<std::string, V>`. -/
abbrev UMap (V : Type) := AList fun _ : Bytes => V

/-- `m.emplace(k, v)`: does nothing when the key is there. -/
def UMap.emplace {V : Type} (m : UMap V) (k : Bytes) (v : V) : UMap V :=
  if k ∈ m then m else m.insert k v

theorem lookup_erase_ite {V : Type} (m : UMap V) (a b : Bytes) :
    (m.erase a).lookup b = if b = a then none else m.lookup b := by
  by_cases h : b = a
  · rw [if_pos h, h, AList.lookup_erase]
  · rw [if_neg h, AList.lookup_erase_ne h]

theorem lookup_insert_ite {V : Type} (m : UMap V) (a b : Bytes) (v : V) :
    (m.insert a v).lookup b = if b = a then some v else m.lookup b := by
  by_cases h : b = a
  · rw [if_pos h, h, AList.lookup_insert]
  · rw [if_neg h, AList.lookup_insert_ne h]

theorem emplace_of_lookup {V : Type} {m : UMap V} {a : Bytes} (h : m.lookup a = none) (v : V) :
    UMap.emplace m a v = m.insert a v := by
  rw [UMap.emplace, if_neg (AList.lookup_eq_none.mp h)]

theorem emplace_lookup {V : Type} (m : UMap V) (k : Bytes) (v : V) (key : Bytes) :
    (m.emplace k v).lookup key = (m.lookup key).or (if key = k then some v else none) := by
  unfold UMap.emplace
  by_cases hk : k ∈ m
  · rw [if_pos hk]
    by_cases heq : key = k
    · subst heq
      obtain ⟨x, hx⟩ := Option.isSome_iff_exists.mp (AList.lookup_isSome.mpr hk)
      rw [hx, Option.some_or]
    · rw [if_neg heq, Option.or_none]
  · rw [if_neg hk]
    by_cases heq : key = k
    · subst heq
      rw [AList.lookup_insert, AList.lookup_eq_none.mpr hk, if_pos rfl, Option.none_or]
    · rw [AList.lookup_insert_ne heq, if_neg heq, Option.or_none]

end CppAmi
