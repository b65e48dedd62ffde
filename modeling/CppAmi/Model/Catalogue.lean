import CppAmi.Model.Action

/-!
# The actions of the library

Each class in `action/` gives its name and its keys to `Action`'s constructor and sets the
values it knows. `create` leaves it to its caller what the action is called; here that is
fixed, so these constructors return for whatever they are given.
-/

namespace CppAmi.Action

/-- A constructor: the name, the keys, and the values it sets in its body. -/
def construct (uuid : Bytes) (action : String) (orderedKeys : List String)
    (values : List (String × Bytes)) : Except Fault Action := do
  let a ← create uuid (ascii action) (orderedKeys.map ascii)
  values.foldlM (fun a kv => a.access (.setValue (ascii kv.1) kv.2)) a

def challenge (uuid : Bytes) : Except Fault Action :=
  construct uuid "Challenge" ["AuthType"] [("AuthType", ascii "MD5")]

def deviceStateList (uuid : Bytes) : Except Fault Action := construct uuid "DeviceStateList" [] []

def events (uuid : Bytes) : Except Fault Action :=
  construct uuid "Events" ["EventMask"] [("EventMask", ascii "on")]

def extensionState (uuid : Bytes) : Except Fault Action :=
  construct uuid "ExtensionState" ["Exten", "Context"] []

def getvar (uuid : Bytes) : Except Fault Action :=
  construct uuid "Getvar" ["Channel", "Variable"] []

def listCommands (uuid : Bytes) : Except Fault Action := construct uuid "ListCommands" [] []

/-- `Login()`. -/
def login (uuid : Bytes) : Except Fault Action :=
  construct uuid "Login" ["Username", "AuthType", "Secret", "Key", "Events"] []

/-- `Login(username, secret)`. -/
def loginWith (uuid username secret : Bytes) : Except Fault Action :=
  construct uuid "Login" ["Username", "AuthType", "Secret", "Key", "Events"]
    [("Username", username), ("Secret", secret)]

def logoff (uuid : Bytes) : Except Fault Action := construct uuid "Logoff" [] []

def mailboxCount (uuid mailbox : Bytes) : Except Fault Action :=
  construct uuid "MailboxCount" ["Mailbox"] [("Mailbox", mailbox)]

def mailboxStatus (uuid mailbox : Bytes) : Except Fault Action :=
  construct uuid "MailboxStatus" ["Mailbox"] [("Mailbox", mailbox)]

def parkedCalls (uuid : Bytes) : Except Fault Action :=
  construct uuid "ParkedCalls" ["ParkingLot"] []

def parkinglots (uuid : Bytes) : Except Fault Action := construct uuid "Parkinglots" [] []

def ping (uuid : Bytes) : Except Fault Action := construct uuid "Ping" [] []

def voicemailBoxSummary (uuid context mailbox : Bytes) : Except Fault Action :=
  construct uuid "VoicemailBoxSummary" ["Context", "Mailbox"]
    [("Context", context), ("Mailbox", mailbox)]

def voicemailRefresh (uuid : Bytes) : Except Fault Action :=
  construct uuid "VoicemailRefresh" ["Context", "Mailbox"] []

/-- The constructors of the actions that the library has. -/
inductive Constructed (uuid : Bytes) : Except Fault Action → Prop where
  | challenge : Constructed uuid (challenge uuid)
  | deviceStateList : Constructed uuid (deviceStateList uuid)
  | events : Constructed uuid (events uuid)
  | extensionState : Constructed uuid (extensionState uuid)
  | getvar : Constructed uuid (getvar uuid)
  | listCommands : Constructed uuid (listCommands uuid)
  | login : Constructed uuid (login uuid)
  | loginWith (username secret : Bytes) : Constructed uuid (loginWith uuid username secret)
  | logoff : Constructed uuid (logoff uuid)
  | mailboxCount (mailbox : Bytes) : Constructed uuid (mailboxCount uuid mailbox)
  | mailboxStatus (mailbox : Bytes) : Constructed uuid (mailboxStatus uuid mailbox)
  | parkedCalls : Constructed uuid (parkedCalls uuid)
  | parkinglots : Constructed uuid (parkinglots uuid)
  | ping : Constructed uuid (ping uuid)
  | voicemailBoxSummary (context mailbox : Bytes) :
      Constructed uuid (voicemailBoxSummary uuid context mailbox)
  | voicemailRefresh : Constructed uuid (voicemailRefresh uuid)

end CppAmi.Action
