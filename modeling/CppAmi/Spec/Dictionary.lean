import CppAmi.Spec.Message

/-!
# What a dictionary holds

A dictionary keeps its keys in a list and its values in a map. `Coherent` says that
the two tell one story: the keys are those the dictionary was made with, and the value
of a key is the one that was written last, whichever of the ways in is used to ask.
-/

namespace CppAmi.KeyValDict

/-- The fields a dictionary starts with. A key list has keys without a value. -/
def Base.Lists : Base → List (Bytes × Bytes) → Prop
  | .message m, fs => ∃ rest, Record.Fields SEP EOR m fs rest
  | .keys orderedKeys, fs => fs = orderedKeys.map fun key => (key, [])

def KeyedCall.key : KeyedCall → Bytes
  | .setValue key _ | .assign key _ | .index key | .constIndex key => key

/-- What a call writes, and where. -/
def KeyedCall.written : KeyedCall → Option (Bytes × Bytes)
  | .setValue key val | .assign key val => some (key, val)
  | .index _ | .constIndex _ => none

/-- The values after a call that does not throw. -/
def KeyedCall.after (values : UMap Bytes) : KeyedCall → UMap Bytes
  | .setValue key val => values.insert key val
  | .assign key val => (values.emplace key []).insert key val
  | .index key => values.emplace key []
  | .constIndex _ => values

/-- The value that was last written to a key, and `val` where none was. -/
def lastWritten (calls : List KeyedCall) (key val : Bytes) : Bytes :=
  ((calls.filterMap KeyedCall.written).reverse.lookup key).getD val

/-- What holds of a dictionary made from `base`, with these fields, after these calls. -/
structure Coherent (base : Base) (fs : List (Bytes × Bytes)) (calls : List KeyedCall)
    (d : KeyValDict) : Prop where
  made : base.Lists fs
  keys : d.orderedKeys = fs.map Prod.fst
  /-- No value without its key. -/
  known : ∀ key, key ∈ d.values → d.hasKey key
  /-- A message gives each of its keys a value. -/
  parsed : ∀ m, base = .message m → ∀ key, d.hasKey key → key ∈ d.values
  /-- The value that is read is the one that was written last, or the first that was parsed. -/
  value : ∀ key, d.hasKey key → d.constIndex key = .ok ((d.getValue key).getD [])
    ∧ (d.getValue key).getD [] = lastWritten calls key (firstValue fs key)
  /-- The other `operator[]` reads the same. -/
  read : ∀ key, (d.call (.index key)).1 = d.constIndex key
  returns : ∀ c : KeyedCall, d.hasKey c.key → ∃ val, (d.call c).1 = .ok val
  throws : ∀ c : KeyedCall, ¬ d.hasKey c.key → d.call c = (.error (unknownKey c.key), d)
  others : ∀ (c : KeyedCall) key, key ≠ c.key → (d.call c).2.getValue key = d.getValue key
  text : d.toString = messageText (d.orderedKeys.map fun key =>
    (key, lastWritten calls key (firstValue fs key)))

end CppAmi.KeyValDict
