import CppAmi.Lib.Record
import CppAmi.Model.Action
import CppAmi.Model.StreamParser

/-!
# What a message says

A message is a list of lines, `key ++ SEP ++ value` on each, and a blank line.
`messageText` is how such a message is written, `lines` and `lineField` are how it is
read by someone who takes it line by line, and `ofPairs` is the dictionary of the
fields that were read. `set_message` does not look at lines: where the two readings
agree is `SeparatorsFirst`. `Received` are the messages that came over the network, and
`SentAlone` is what a request should be when it goes over it.
-/

namespace CppAmi

/-- The text with these fields. -/
def messageText (fs : List (Bytes × Bytes)) : Bytes := Record.encode SEP EOR fs ++ EOR

/-- The dictionary of fields that were read one after the other. -/
def KeyValDict.ofPairs (fs : List (Bytes × Bytes)) : KeyValDict where
  orderedKeys := fs.map Prod.fst
  values := fs.foldl (fun values f => values.emplace f.1 f.2) ∅

/-- The value of a key is that of the first field with it, and empty where there is none. -/
def firstValue (fs : List (Bytes × Bytes)) (key : Bytes) : Bytes := (fs.lookup key).getD []

/-- What is printed for fields that were read: each key with its first value. -/
def printedFields (fs : List (Bytes × Bytes)) : List (Bytes × Bytes) :=
  fs.map fun f => (f.1, firstValue fs f.1)

/-- A key that comes up again brings the same value. -/
def RepeatsAgree (fs : List (Bytes × Bytes)) : Prop :=
  ∀ f ∈ fs, ∀ g ∈ fs, f.1 = g.1 → f.2 = g.2

/-- `to_string` of what `set_message` reads. -/
def reprint (message : Bytes) : Except Fault Bytes :=
  (KeyValDict.ofMessage message).map KeyValDict.toString

/-! ## Line by line -/

/-- The pieces of a text that end at an `EOR`, without it. -/
def lines : Bytes → List Bytes
  | [] => []
  | [_] => []
  | b :: c :: s => if [b, c] = EOR then [] :: lines s else (lines (c :: s)).modifyHead (b :: ·)

/-- The field on a line: what is in front of the first `SEP` and what is behind it. -/
def lineField (line : Bytes) : Option (Bytes × Bytes) :=
  (Search.find SEP line).map fun i => (line.take i, line.drop (i + SEP.length))

/-- The dictionary lists the fields of the lines in order, and knows the first value of each key. -/
def ReadsLineByLine (message : Bytes) (d : KeyValDict) : Prop :=
  d.orderedKeys = ((lines message).filterMap lineField).map Prod.fst
    ∧ ∀ key, d.getValue key = ((lines message).filterMap lineField).lookup key

/-- No line without a separator comes before a line with one. -/
def SeparatorsFirst (ls : List Bytes) : Prop :=
  ls.Pairwise fun line later => SEP <:+: later → SEP <:+: line

/-! ## From the network -/

/-- The parser has cut this message from the bytes of a connection. -/
def Received (m : KeyValDict) : Prop :=
  ∃ chunks p buf, StreamParser.processChunks {} chunks = .ok p ∧ buf ∈ p.dispatched
    ∧ KeyValDict.ofMessage buf = .ok m

/-! ## To the network -/

def Access.key : Access → Bytes
  | .setValue key _ | .assign key _ => key

def Access.val : Access → Bytes
  | .setValue _ val | .assign _ val => val

/-- The value that was last set for a key, and empty where none was. -/
def lastValue (accesses : List Access) (key : Bytes) : Bytes :=
  accesses.foldl (fun val x => if x.key = key then x.val else val) []

/-- What an action prints for a key. -/
def Action.printed (a : Action) (key : Bytes) : Bytes := (a.values.lookup key).getD []

/-- What an action prints is one line for each field, and none of its keys is a header. -/
structure Action.OneLine (a : Action) : Prop where
  action : ¬ EOR <:+: a.action
  actionId : ¬ EOR <:+: a.actionId
  keys : ∀ key ∈ a.orderedKeys,
    ¬ EOR <:+: key ∧ ¬ SEP <:+: key ∧ key ≠ ascii "Action" ∧ key ≠ ascii "ActionID"
  values : ∀ key ∈ a.orderedKeys, ¬ EOR <:+: a.printed key

/-- What `uuid_unparse_lower` writes. -/
def UuidText (uuid : Bytes) : Prop :=
  uuid.length = 36 ∧ ∀ b ∈ uuid, b ∈ ascii "0123456789abcdef-"

/-- The text of an action is one message, and it says what the action says. -/
structure SentAlone (a : Action) (keys : List Bytes) (value : Bytes → Bytes) : Prop where
  ends : Framing.EndsOnce EOM a.toString
  framed : ∀ chunks : List Bytes, chunks.flatten = a.toString →
    StreamParser.processChunks { firstEvent := false } chunks
      = .ok { firstEvent := false, dispatched := [a.toString] }
  parsed : ∃ d, KeyValDict.ofMessage a.toString = .ok d
    ∧ d.orderedKeys = ascii "Action" :: ascii "ActionID" :: keys
    ∧ d.getValue (ascii "Action") = some a.action
    ∧ d.getValue (ascii "ActionID") = some a.actionId
    ∧ ∀ key ∈ keys, d.getValue key = some (value key)

end CppAmi
