import CppAmi.Lib.Objects
import CppAmi.Model.Defs

/-!
# `util::KeyValDict`

One AMI message as an object: its keys in order, and a map from keys to values.
A key may be listed more than once; the map then holds the first value.
-/

namespace CppAmi

structure KeyValDict where
  orderedKeys : List Bytes
  values : UMap Bytes
  deriving DecidableEq

namespace KeyValDict

/-- `KeyValDict(std::vector<std::string>)`. -/
def ofKeys (orderedKeys : List Bytes) : KeyValDict := ⟨orderedKeys, ∅⟩

/-- What is left of a dictionary that was moved from. -/
def moved : KeyValDict := ⟨[], ∅⟩

def hasKey (d : KeyValDict) (key : Bytes) : Bool := decide (key ∈ d.orderedKeys)

def getValue (d : KeyValDict) (key : Bytes) : Option Bytes := d.values.lookup key

/-- What is thrown at a key that is not listed. -/
def unknownKey (key : Bytes) : Fault := .throws (.runtimeError (ascii "unknown key " ++ key))

/-- `operator[]`, which makes the entry it returns a reference to. -/
def index (d : KeyValDict) (key : Bytes) : Except Fault KeyValDict :=
  if d.hasKey key then .ok { d with values := d.values.emplace key [] } else .error (unknownKey key)

/-- `operator[] const`. -/
def constIndex (d : KeyValDict) (key : Bytes) : Except Fault Bytes :=
  if d.hasKey key then
    match d.values.lookup key with
    | some val => .ok val
    | none => .ok []
  else .error (unknownKey key)

/-- `dict[key] = val`. -/
def assign (d : KeyValDict) (key val : Bytes) : Except Fault KeyValDict := do
  let d ← d.index key
  .ok { d with values := d.values.insert key val }

def setValue (d : KeyValDict) (key val : Bytes) : Except Fault KeyValDict :=
  if d.hasKey key then .ok { d with values := d.values.insert key val } else .error (unknownKey key)

/--
One iteration of the loop in `set_message`, with `key_beg` at `keyBeg`. The result
is `none` where the loop ends: at its condition or at the `break`.
-/
def parseField (eventBuf : Bytes) (keyBeg : Nat) (d : KeyValDict) :
    Except Fault (Option (Nat × KeyValDict)) :=
  if keyBeg < eventBuf.length then
    match find eventBuf SEP keyBeg with
    | none => .ok none
    | some keyEnd => do
      let key ← view eventBuf keyBeg (keyEnd - keyBeg)
      let valBeg := keyEnd + 2
      let valEnd := find eventBuf EOR valBeg
      -- `val_end` is not compared with npos before it is used
      let val ← view eventBuf valBeg (distance valEnd valBeg)
      .ok (some (advance valEnd 2, ⟨d.orderedKeys ++ [key], d.values.emplace key val⟩))
  else .ok none

/-- The loop of `set_message`, allowed `fuel` iterations. -/
def parseFields (eventBuf : Bytes) : Nat → Nat → KeyValDict → Except Fault KeyValDict
  | 0, _, _ => .error .diverged
  | fuel + 1, keyBeg, d =>
    match parseField eventBuf keyBeg d with
    | .error e => .error e
    | .ok none => .ok d
    | .ok (some (keyBeg', d')) => parseFields eventBuf fuel keyBeg' d'

def setMessage (eventBuf : Bytes) : Except Fault KeyValDict :=
  if eventBuf = [] then .error .assertFailed
  else parseFields eventBuf (eventBuf.length + 1) 0 ⟨[], ∅⟩

/-- `KeyValDict(std::string)`. -/
def ofMessage (eventBuf : Bytes) : Except Fault KeyValDict := setMessage eventBuf

def toString (d : KeyValDict) : Bytes :=
  (d.orderedKeys.flatMap fun key => key ++ SEP ++ (d.values.lookup key).getD [] ++ EOR) ++ EOR

/-! ## The life of a dictionary -/

/-- What the two constructors take. -/
inductive Base where
  | message (eventBuf : Bytes)
  | keys (orderedKeys : List Bytes)

def construct : Base → Except Fault KeyValDict
  | .message eventBuf => ofMessage eventBuf
  | .keys orderedKeys => .ok (ofKeys orderedKeys)

/-- The calls that throw at a key that is not listed. -/
inductive KeyedCall where
  | setValue (key val : Bytes)
  /-- `dict[key] = val`. -/
  | assign (key val : Bytes)
  /-- A value is read through `operator[]`. -/
  | index (key : Bytes)
  /-- A value is read through `operator[] const`. -/
  | constIndex (key : Bytes)

/-- What a call returns, nothing for a write, or throws, and the dictionary it leaves behind. -/
def call (d : KeyValDict) : KeyedCall → Except Fault Bytes × KeyValDict
  | .setValue key val =>
    match d.setValue key val with
    | .ok d' => (.ok [], d')
    | .error e => (.error e, d)
  | .assign key val =>
    match d.assign key val with
    | .ok d' => (.ok [], d')
    | .error e => (.error e, d)
  | .index key =>
    match d.index key with
    | .ok d' => (.ok ((d'.values.lookup key).getD []), d')
    | .error e => (.error e, d)
  | .constIndex key => (d.constIndex key, d)

/-- The copy constructor and copy assignment are the defaulted ones: member by member. -/
def interface : Objects.Interface Fault Base KeyedCall KeyValDict where
  construct := construct
  call d c := (d.call c).2
  copy d := .ok ⟨d.orderedKeys, d.values⟩
  assign _ right := .ok ⟨right.orderedKeys, right.values⟩

end KeyValDict

end CppAmi
