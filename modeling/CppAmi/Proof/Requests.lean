import CppAmi.Proof.Dictionary

/-!
# What goes out as a request

An action is printed field by field, and nothing is escaped. As long as every value
that is printed is on one line, the text is one message with the fields of the action;
a value with an `EOR` in it goes on in the message as lines of its own
(`request_alone_iff`).
-/

namespace CppAmi.Proof

open CppAmi KeyValDict StreamParser Framing Record

/-! ## The values of an action -/

/-- An access sets the value of its key, if that is one of the action's. -/
theorem access_cases (a : Action) (x : Access) :
    (x.key ∈ a.orderedKeys ∧ ∃ values, a.access x = .ok { a with values := values }
        ∧ ∀ key, values.lookup key = if key = x.key then some x.val else a.values.lookup key)
      ∨ (x.key ∉ a.orderedKeys ∧ a.access x = .error (unknownKey x.key)) := by
  by_cases hkey : a.toKeyValDict.hasKey x.key
  · refine Or.inl ⟨hasKey_iff.mp hkey, ?_⟩
    cases x with
    | setValue key val =>
        rw [Access.key] at hkey
        refine ⟨a.values.insert key val, ?_, fun k => lookup_insert_ite _ _ _ _⟩
        rw [Action.access, setValue_listed hkey]
        rfl
    | assign key val =>
        rw [Access.key] at hkey
        refine ⟨(a.values.emplace key []).insert key val, ?_, fun k => lookup_assign _ _ _ _⟩
        rw [Action.access, assign_listed hkey]
        rfl
  · refine Or.inr ⟨fun hmem => hkey (hasKey_iff.mpr hmem), ?_⟩
    cases x with
    | setValue key val =>
        rw [Access.key] at hkey ⊢
        rw [Action.access, setValue_unlisted hkey]
        rfl
    | assign key val =>
        rw [Access.key] at hkey ⊢
        rw [Action.access, assign_unlisted hkey]
        rfl

/-- What a key prints after the accesses. -/
theorem accesses_spec (a : Action) (xs : List Access) :
    (a.accesses xs).action = a.action ∧ (a.accesses xs).actionId = a.actionId
      ∧ (a.accesses xs).orderedKeys = a.orderedKeys
      ∧ ∀ key ∈ a.orderedKeys, ((a.accesses xs).values.lookup key).getD []
          = xs.foldl (fun val x => if x.key = key then x.val else val)
              ((a.values.lookup key).getD []) := by
  induction xs generalizing a with
  | nil => exact ⟨rfl, rfl, rfl, fun _ _ => rfl⟩
  | cons x xs ih =>
      rcases access_cases a x with ⟨_, values, hset, hvalues⟩ | ⟨hnot, hthrow⟩
      · obtain ⟨h₁, h₂, h₃, h₄⟩ := ih { a with values := values }
        have hcons : a.accesses (x :: xs)
            = ({ a with values := values } : Action).accesses xs := by
          unfold Action.accesses
          rw [List.foldl_cons, hset]
          rfl
        rw [hcons]
        refine ⟨h₁, h₂, h₃, ?_⟩
        intro key hkey
        rw [h₄ key hkey, List.foldl_cons, hvalues key]
        by_cases heq : x.key = key
        · rw [if_pos heq, if_pos heq.symm, Option.getD_some]
        · rw [if_neg heq, if_neg (Ne.symm heq)]
      · have hcons : a.accesses (x :: xs) = a.accesses xs := by
          unfold Action.accesses
          rw [List.foldl_cons, hthrow]
          rfl
        obtain ⟨h₁, h₂, h₃, h₄⟩ := ih a
        rw [hcons]
        refine ⟨h₁, h₂, h₃, ?_⟩
        intro key hkey
        have hne : x.key ≠ key := by
          intro heq
          exact hnot (heq ▸ hkey)
        rw [h₄ key hkey, List.foldl_cons, if_neg hne]

/-! ## The text -/

/-- The fields an action prints. -/
def actionFields (action actionId : Bytes) (keys : List Bytes) (value : Bytes → Bytes) :
    List (Bytes × Bytes) :=
  (ascii "Action", action) :: (ascii "ActionID", actionId) :: keys.map fun key => (key, value key)

theorem toString_accesses {uuid action : Bytes} {keys : List Bytes} {a : Action}
    (hnew : Action.create uuid action keys = .ok a) (xs : List Access) :
    (a.accesses xs).action = action ∧ (a.accesses xs).actionId = uuid
      ∧ (a.accesses xs).toString = messageText (actionFields action uuid keys (lastValue xs)) := by
  unfold Action.create at hnew
  split at hnew
  · cases hnew
  · cases hnew
    obtain ⟨haction, hid, hkeys, hvalues⟩ :=
      accesses_spec { ofKeys keys with action := action, actionId := uuid } xs
    refine ⟨haction, hid, ?_⟩
    generalize hb : ({ ofKeys keys with action := action, actionId := uuid } : Action).accesses xs
      = b at *
    have hprint : b.toKeyValDict.toString
        = messageText (keys.map fun key => (key, lastValue xs key)) := by
      rw [toString_eq fun key hkey => hvalues key (hkeys ▸ hkey), hkeys]
      rfl
    unfold Action.toString messageText actionFields
    rw [haction, hid, hprint]
    simp [messageText, encodeField]

section Lookup

variable {action uuid : Bytes} {keys : List Bytes} {value : Bytes → Bytes}

theorem lookup_map_mem {key : Bytes} (h : key ∈ keys) :
    (keys.map fun key => (key, value key)).lookup key = some (value key) := by
  induction keys with
  | nil => cases h
  | cons k ks ih =>
      rw [List.map_cons, lookup_cons_ite]
      by_cases heq : key = k
      · rw [if_pos heq, Option.some_or, heq]
      · rw [if_neg heq, Option.none_or]
        exact ih ((List.mem_cons.mp h).resolve_left heq)

theorem lookup_action : (actionFields action uuid keys value).lookup (ascii "Action")
    = some action := List.lookup_cons_self

theorem lookup_actionId : (actionFields action uuid keys value).lookup (ascii "ActionID")
    = some uuid := by
  have hne : ascii "ActionID" ≠ ascii "Action" := by decide
  unfold actionFields
  rw [lookup_cons_ite, if_neg hne, Option.none_or]
  exact List.lookup_cons_self

theorem lookup_key {key : Bytes} (h : key ∈ keys) (haction : key ≠ ascii "Action")
    (hid : key ≠ ascii "ActionID") :
    (actionFields action uuid keys value).lookup key = some (value key) := by
  unfold actionFields
  rw [lookup_cons_ite, if_neg haction, Option.none_or, lookup_cons_ite, if_neg hid, Option.none_or]
  exact lookup_map_mem h

end Lookup

theorem uuidText_one_line {uuid : Bytes} (h : UuidText uuid) : ¬ EOR <:+: uuid := by
  intro hin
  have hmem : (13 : UInt8) ∈ uuid := hin.subset (by decide)
  exact absurd (h.2 13 hmem) (by decide)

/-- What is read back was on one line. -/
theorem one_line_of_sentAlone {a : Action} {keys : List Bytes} {value : Bytes → Bytes}
    (h : SentAlone a keys value) :
    ¬ EOR <:+: a.action ∧ ∀ key ∈ keys, ¬ EOR <:+: value key := by
  obtain ⟨d, hread, _, haction, _, hvals⟩ := h.parsed
  have hclosed : EOR <:+ a.toString := (show EOR <:+ EOM by decide).trans h.ends.suffix
  obtain ⟨fs, rest, hfields, hfs⟩ := exists_fields_of_suffix hclosed
  obtain rfl : d = ofPairs fs := Except.ok.inj (hread.symm.trans hfs)
  have hone : ∀ key v, (ofPairs fs).getValue key = some v → ¬ EOR <:+: v := by
    intro key v hv
    rw [getValue_ofPairs] at hv
    exact hfields.vals (key, v) (mem_of_lookup hv)
  exact ⟨hone _ _ haction, fun key hkey => hone key _ (hvals key hkey)⟩

/-- An action prints no field that a reader would cut elsewhere. -/
theorem actionFields_one_line {action actionId : Bytes} {keys : List Bytes}
    {value : Bytes → Bytes} (hid : ¬ EOR <:+: actionId)
    (hkeys : ∀ key ∈ keys, ¬ EOR <:+: key ∧ ¬ SEP <:+: key)
    (hlines : ¬ EOR <:+: action ∧ ∀ key ∈ keys, ¬ EOR <:+: value key) :
    ∀ f ∈ actionFields action actionId keys value,
      ¬ SEP <:+: f.1 ∧ ¬ EOR <:+: f.1 ∧ ¬ EOR <:+: f.2 := by
  have hown : ∀ key ∈ [ascii "Action", ascii "ActionID"], ¬ SEP <:+: key ∧ ¬ EOR <:+: key := by
    decide
  intro f hf
  rcases List.mem_cons.mp hf with rfl | hf
  · have hkey := hown (ascii "Action") (by simp)
    exact ⟨hkey.1, hkey.2, hlines.1⟩
  · rcases List.mem_cons.mp hf with rfl | hf
    · have hkey := hown (ascii "ActionID") (by simp)
      exact ⟨hkey.1, hkey.2, hid⟩
    · obtain ⟨key, hkey, rfl⟩ := List.mem_map.mp hf
      exact ⟨(hkeys key hkey).2, (hkeys key hkey).1, hlines.2 key hkey⟩

/--
**A request is one message with its own headers exactly when what it prints is on one line.**

Whatever is set, and however often: nothing is escaped on the way out, so a value with
an `EOR` in it is not read back.
-/
theorem request_alone_iff (uuid action : Bytes) (keys : List Bytes) (accesses : List Access)
    (a : Action) (huuid : UuidText uuid)
    (hkeys : ∀ key ∈ keys, ¬ EOR <:+: key ∧ ¬ SEP <:+: key ∧ key ≠ ascii "Action"
      ∧ key ≠ ascii "ActionID")
    (hnew : Action.create uuid action keys = .ok a) :
    SentAlone (a.accesses accesses) keys (lastValue accesses)
      ↔ ¬ EOR <:+: action ∧ ∀ key ∈ keys, ¬ EOR <:+: lastValue accesses key := by
  obtain ⟨haction, hid, htext⟩ := toString_accesses hnew accesses
  generalize a.accesses accesses = b at haction hid htext ⊢
  constructor
  · intro h
    rw [← haction]
    exact one_line_of_sentAlone h
  · intro hlines
    have hmem := actionFields_one_line (uuidText_one_line huuid)
      (fun key hkey => ⟨(hkeys key hkey).1, (hkeys key hkey).2.1⟩) hlines
    have hends : EndsOnce EOM b.toString := by
      rw [htext]
      exact endsOnce_messageText _ (by simp [actionFields])
        (clean_of_keys fun f hf => (hmem f hf).2.1) fun f hf => (hmem f hf).2.2
    refine ⟨hends, ?_, ofPairs (actionFields action uuid keys (lastValue accesses)), ?_, ?_, ?_, ?_,
      ?_⟩
    · intro chunks hcat
      exact processChunks_cut (Framed.single EOM_ne_nil hends) hcat
    · rw [htext]
      exact ofMessage_fields (messageText_ne_nil _)
        (fields_messageText (fun f hf => (hmem f hf).1) fun f hf => (hmem f hf).2.2)
    · simp [actionFields, Function.comp_def]
    · rw [getValue_ofPairs, lookup_action, haction]
    · rw [getValue_ofPairs, lookup_actionId, hid]
    · intro key hkey
      rw [getValue_ofPairs]
      exact lookup_key hkey (hkeys key hkey).2.2.1 (hkeys key hkey).2.2.2

/-- An ActionID as `create_uuid()` makes them. -/
def sampleUuid : Bytes := ascii "1b4e28ba-2fa1-11d2-883f-0016d3cca427"

theorem uuidText_sample : UuidText sampleUuid := by
  have hall : (sampleUuid.all fun b => (ascii "0123456789abcdef-").contains b) = true := by decide
  refine ⟨by decide, fun b hb => ?_⟩
  have hdigit := List.all_eq_true.mp hall b hb
  rwa [List.contains_iff_mem] at hdigit

/-- The rule at a mailbox that is set twice. -/
theorem request_alone_mailbox :
    ∃ a, Action.create sampleUuid (ascii "MailboxStatus") [ascii "Mailbox"] = .ok a
      ∧ (SentAlone (a.accesses [.setValue (ascii "Mailbox") (ascii "100"),
            .assign (ascii "Mailbox") (ascii "200")]) [ascii "Mailbox"]
          (lastValue [.setValue (ascii "Mailbox") (ascii "100"),
            .assign (ascii "Mailbox") (ascii "200")])
        ↔ ¬ EOR <:+: ascii "MailboxStatus" ∧ ∀ key ∈ [ascii "Mailbox"],
          ¬ EOR <:+: lastValue [.setValue (ascii "Mailbox") (ascii "100"),
            .assign (ascii "Mailbox") (ascii "200")] key) :=
  ⟨_, rfl, request_alone_iff sampleUuid (ascii "MailboxStatus") [ascii "Mailbox"] _ _
    uuidText_sample (by decide) rfl⟩

/-- A mailbox that logs the connection off: the value closes the request and starts another. -/
theorem request_injected :
    ∃ a, Action.create sampleUuid (ascii "MailboxStatus") [ascii "Mailbox"] = .ok a
      ∧ UuidText sampleUuid
      ∧ (∀ key ∈ [ascii "Mailbox"], ¬ EOR <:+: key ∧ ¬ SEP <:+: key ∧ key ≠ ascii "Action"
        ∧ key ≠ ascii "ActionID")
      ∧ processChunks { firstEvent := false }
          [(a.accesses [.setValue (ascii "Mailbox") (ascii "1\r\n\r\nAction: Logoff")]).toString]
        = .ok { firstEvent := false,
                dispatched := [ascii "Action: MailboxStatus\r\nActionID: " ++ sampleUuid
                    ++ ascii "\r\nMailbox: 1\r\n\r\n",
                  ascii "Action: Logoff\r\n\r\n"] }
      ∧ ¬ SentAlone (a.accesses [.setValue (ascii "Mailbox") (ascii "1\r\n\r\nAction: Logoff")])
          [ascii "Mailbox"]
          (lastValue [.setValue (ascii "Mailbox") (ascii "1\r\n\r\nAction: Logoff")]) := by
  obtain ⟨a, hnew⟩ : ∃ a,
      Action.create sampleUuid (ascii "MailboxStatus") [ascii "Mailbox"] = .ok a := ⟨_, rfl⟩
  obtain ⟨_, _, htext⟩ := toString_accesses hnew
    [.setValue (ascii "Mailbox") (ascii "1\r\n\r\nAction: Logoff")]
  have hfirst : EndsOnce EOM (ascii "Action: MailboxStatus\r\nActionID: " ++ sampleUuid
      ++ ascii "\r\nMailbox: 1\r\n\r\n") :=
    endsOnce_messageText [(ascii "Action", ascii "MailboxStatus"), (ascii "ActionID", sampleUuid),
      (ascii "Mailbox", ascii "1")] (by decide) (clean_of_keys (by decide)) (by decide)
  have hsecond : EndsOnce EOM (ascii "Action: Logoff\r\n\r\n") :=
    endsOnce_messageText [(ascii "Action", ascii "Logoff")] (by decide)
      (clean_of_keys (by decide)) (by decide)
  have hcat : [(a.accesses
      [.setValue (ascii "Mailbox") (ascii "1\r\n\r\nAction: Logoff")]).toString].flatten
      = ascii "Action: MailboxStatus\r\nActionID: " ++ sampleUuid
        ++ ascii "\r\nMailbox: 1\r\n\r\n" ++ ascii "Action: Logoff\r\n\r\n" := by
    rw [htext]
    decide
  have htwo := processChunks_cut (Framed.cons hfirst (Framed.single EOM_ne_nil hsecond)) hcat
  refine ⟨a, hnew, uuidText_sample, by decide, htwo, ?_⟩
  intro h
  rw [h.framed _ (by simp)] at htwo
  injection htwo with htwo
  injection htwo with _ _ _ hone
  exact absurd (congrArg List.length hone) (by simp)

end CppAmi.Proof
