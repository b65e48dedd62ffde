import CppAmi.Model.KeyValDict

/-!
# `action::Action`

A request to the server: the name of an action, an ActionID that is made up when the
action is constructed, and a dictionary with the keys the action takes. The values are
set afterwards, one access at a time.
-/

namespace CppAmi

/-- `action::Action`. -/
structure Action extends KeyValDict where
  action : Bytes
  actionId : Bytes

/-- What a caller does to set a value. -/
inductive Access where
  | setValue (key val : Bytes)
  /-- `action[key] = val`. -/
  | assign (key val : Bytes)

namespace Action

/-- `Action(std::string, std::vector<std::string>)`; `uuid` is what `create_uuid()` returns. -/
def create (uuid action : Bytes) (orderedKeys : List Bytes) : Except Fault Action :=
  if action = [] then .error .assertFailed
  else .ok { KeyValDict.ofKeys orderedKeys with action := action, actionId := uuid }

def toString (a : Action) : Bytes :=
  ascii "Action" ++ SEP ++ a.action ++ EOR ++ ascii "ActionID" ++ SEP ++ a.actionId ++ EOR
    ++ a.toKeyValDict.toString

/-- The action after an access, which throws where the key is not one of the action's. -/
def access (a : Action) : Access → Except Fault Action
  | .setValue key val => do
    let dict ← a.toKeyValDict.setValue key val
    .ok { a with toKeyValDict := dict }
  | .assign key val => do
    let dict ← a.toKeyValDict.assign key val
    .ok { a with toKeyValDict := dict }

/-- The accesses of a caller that goes on after one that throws. -/
def accesses (a : Action) (xs : List Access) : Action :=
  xs.foldl (fun a x => (a.access x).toOption.getD a) a

end Action

end CppAmi
