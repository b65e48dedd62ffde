import CppAmi.Proof.Parse
import CppAmi.Spec.Dictionary

/-!
# The keys and the values of a dictionary agree

`has_key` looks into the list of keys, everything else into the map of values. A call
that finds its key changes the map at that key only, to `KeyedCall.after`, and a call that
does not throws before it has changed anything. So the two containers stay together
through every call and every copy (`keys_and_values_agree`).
-/

namespace CppAmi.Proof

open CppAmi KeyValDict Record

/-! ## One call -/

theorem hasKey_iff {d : KeyValDict} {key : Bytes} : d.hasKey key ↔ key ∈ d.orderedKeys :=
  decide_eq_true_iff

section Writes

variable {d : KeyValDict} {key : Bytes}

theorem setValue_listed (h : d.hasKey key) (val : Bytes) :
    d.setValue key val = .ok { d with values := d.values.insert key val } := by
  rw [setValue, if_pos h]

theorem setValue_unlisted (h : ¬ d.hasKey key) (val : Bytes) :
    d.setValue key val = .error (unknownKey key) := by
  rw [setValue, if_neg h]

theorem assign_listed (h : d.hasKey key) (val : Bytes) :
    d.assign key val = .ok { d with values := (d.values.emplace key []).insert key val } := by
  rw [KeyValDict.assign, KeyValDict.index, if_pos h]
  rfl

theorem assign_unlisted (h : ¬ d.hasKey key) (val : Bytes) :
    d.assign key val = .error (unknownKey key) := by
  rw [KeyValDict.assign, KeyValDict.index, if_neg h]
  rfl

/-- The entry that `operator[]` makes is written over. -/
theorem lookup_assign (values : UMap Bytes) (key val other : Bytes) :
    ((values.emplace key []).insert key val).lookup other
      = if other = key then some val else values.lookup other := by
  rw [lookup_insert_ite, emplace_lookup]
  by_cases h : other = key
  · rw [if_pos h, if_pos h]
  · rw [if_neg h, if_neg h, if_neg h, Option.or_none]

end Writes

theorem call_listed {d : KeyValDict} {c : KeyedCall} (h : d.hasKey c.key) :
    ∃ val, d.call c = (.ok val, { d with values := c.after d.values }) := by
  cases c with
  | setValue key val =>
      rw [KeyedCall.key] at h
      exact ⟨[], by rw [call, setValue_listed h, KeyedCall.after]⟩
  | assign key val =>
      rw [KeyedCall.key] at h
      exact ⟨[], by rw [call, assign_listed h, KeyedCall.after]⟩
  | index key =>
      rw [KeyedCall.key] at h
      refine ⟨((d.values.emplace key []).lookup key).getD [], ?_⟩
      rw [call, KeyValDict.index, if_pos h, KeyedCall.after]
  | constIndex key =>
      rw [KeyedCall.key] at h
      refine ⟨(d.values.lookup key).getD [], ?_⟩
      rw [call, KeyValDict.constIndex, if_pos h]
      cases d.values.lookup key <;> rfl

theorem call_unlisted {d : KeyValDict} {c : KeyedCall} (h : ¬ d.hasKey c.key) :
    d.call c = (.error (unknownKey c.key), d) := by
  cases c with
  | setValue key val =>
      rw [KeyedCall.key] at h ⊢
      rw [call, setValue_unlisted h]
  | assign key val =>
      rw [KeyedCall.key] at h ⊢
      rw [call, assign_unlisted h]
  | index key =>
      rw [KeyedCall.key] at h ⊢
      rw [call, KeyValDict.index, if_neg h]
  | constIndex key =>
      rw [KeyedCall.key] at h ⊢
      rw [call, KeyValDict.constIndex, if_neg h]

theorem lookup_after_of_ne (values : UMap Bytes) {c : KeyedCall} {key : Bytes} (h : key ≠ c.key) :
    (c.after values).lookup key = values.lookup key := by
  cases c with
  | setValue k val =>
      rw [KeyedCall.key] at h
      rw [KeyedCall.after, lookup_insert_ite, if_neg h]
  | assign k val =>
      rw [KeyedCall.key] at h
      rw [KeyedCall.after, lookup_assign, if_neg h]
  | index k =>
      rw [KeyedCall.key] at h
      rw [KeyedCall.after, emplace_lookup, if_neg h, Option.or_none]
  | constIndex k => rfl

/-- A write is read back, and nothing else changes what is read. -/
theorem lookup_after_self (values : UMap Bytes) (c : KeyedCall) :
    ((c.after values).lookup c.key).getD []
      = (c.written.map Prod.snd).getD ((values.lookup c.key).getD []) := by
  cases c with
  | setValue k val =>
      rw [KeyedCall.after, KeyedCall.key, AList.lookup_insert]
      rfl
  | assign k val =>
      rw [KeyedCall.after, KeyedCall.key, AList.lookup_insert]
      rfl
  | index k =>
      rw [KeyedCall.after, KeyedCall.key, emplace_lookup, if_pos rfl]
      cases values.lookup k <;> rfl
  | constIndex k => rfl

theorem mem_after {values : UMap Bytes} (c : KeyedCall) {key : Bytes} (h : key ∈ values) :
    key ∈ c.after values := by
  by_cases heq : key = c.key
  · subst heq
    cases c with
    | setValue k val => exact AList.mem_insert _ |>.mpr (Or.inl rfl)
    | assign k val => exact AList.mem_insert _ |>.mpr (Or.inl rfl)
    | index k =>
        rw [KeyedCall.key] at h ⊢
        rwa [KeyedCall.after, UMap.emplace, if_pos h]
    | constIndex k => exact h
  · rwa [← AList.lookup_isSome, lookup_after_of_ne values heq, AList.lookup_isSome]

/-! ## The last write -/

theorem lastWritten_of_ne {calls : List KeyedCall} {c : KeyedCall} {key val : Bytes}
    (h : key ≠ c.key) : lastWritten (calls ++ [c]) key val = lastWritten calls key val := by
  unfold lastWritten
  rw [List.filterMap_append, List.reverse_append]
  cases c with
  | setValue k v =>
      rw [KeyedCall.key] at h
      show (List.lookup key ((k, v) :: (calls.filterMap KeyedCall.written).reverse)).getD val = _
      rw [lookup_cons_ite, if_neg h, Option.none_or]
  | assign k v =>
      rw [KeyedCall.key] at h
      show (List.lookup key ((k, v) :: (calls.filterMap KeyedCall.written).reverse)).getD val = _
      rw [lookup_cons_ite, if_neg h, Option.none_or]
  | index k => rfl
  | constIndex k => rfl

theorem lastWritten_self (calls : List KeyedCall) (c : KeyedCall) (val : Bytes) :
    lastWritten (calls ++ [c]) c.key val
      = (c.written.map Prod.snd).getD (lastWritten calls c.key val) := by
  unfold lastWritten
  rw [List.filterMap_append, List.reverse_append]
  cases c with
  | setValue k v =>
      show (List.lookup k ((k, v) :: _)).getD val = v
      rw [List.lookup_cons_self, Option.getD_some]
  | assign k v =>
      show (List.lookup k ((k, v) :: _)).getD val = v
      rw [List.lookup_cons_self, Option.getD_some]
  | index k => rfl
  | constIndex k => rfl

/-! ## The invariant -/

/-- What the two containers have in common, as long as the dictionary lives. -/
structure KeyedBy (base : Base) (fs : List (Bytes × Bytes)) (calls : List KeyedCall)
    (d : KeyValDict) : Prop where
  made : base.Lists fs
  keys : d.orderedKeys = fs.map Prod.fst
  known : ∀ key, key ∈ d.values → d.hasKey key
  parsed : ∀ m, base = .message m → ∀ key, d.hasKey key → key ∈ d.values
  value : ∀ key, d.hasKey key →
    (d.values.lookup key).getD [] = lastWritten calls key (firstValue fs key)

theorem keyedBy_keys (keys : List Bytes) :
    KeyedBy (.keys keys) (keys.map fun key => (key, [])) [] (ofKeys keys) where
  made := rfl
  keys := by simp [ofKeys, Function.comp_def]
  known := fun key h => absurd h (AList.notMem_empty key)
  parsed := fun m hm => nomatch hm
  value := by
    intro key _
    show [] = ((keys.map fun key => (key, ([] : Bytes))).lookup key).getD []
    cases hv : (keys.map fun key => (key, ([] : Bytes))).lookup key with
    | none => rfl
    | some v =>
        obtain ⟨k, _, hk⟩ := List.mem_map.mp (mem_of_lookup hv)
        cases hk
        rfl

theorem keyedBy_message {m rest : Bytes} {fs : List (Bytes × Bytes)}
    (h : Fields SEP EOR m fs rest) : KeyedBy (.message m) fs [] (ofPairs fs) where
  made := ⟨rest, h⟩
  keys := rfl
  known := by
    intro key hkey
    obtain ⟨v, hv⟩ := Option.isSome_iff_exists.mp (AList.lookup_isSome.mpr hkey)
    have hv' : (ofPairs fs).getValue key = some v := hv
    rw [getValue_ofPairs] at hv'
    exact hasKey_iff.mpr (List.mem_map_of_mem (mem_of_lookup hv'))
  parsed := by
    intro _ _ key hkey
    obtain ⟨f, hf, rfl⟩ := List.mem_map.mp (hasKey_iff.mp hkey)
    obtain ⟨v, hv, _⟩ := lookup_of_mem hf
    rw [← AList.lookup_isSome]
    show ((ofPairs fs).getValue f.1).isSome
    rw [getValue_ofPairs, hv, Option.isSome_some]
  value := by
    intro key _
    show ((ofPairs fs).getValue key).getD [] = (fs.lookup key).getD []
    rw [getValue_ofPairs]

/-- **Kept by every call.** -/
theorem keyedBy_call {base : Base} {fs : List (Bytes × Bytes)} {calls : List KeyedCall}
    {d : KeyValDict} (h : KeyedBy base fs calls d) (c : KeyedCall) :
    KeyedBy base fs (calls ++ [c]) (d.call c).2 := by
  by_cases hc : d.hasKey c.key
  · obtain ⟨val, hcall⟩ := call_listed hc
    rw [hcall]
    refine ⟨h.made, h.keys, ?_, ?_, ?_⟩
    · intro key hkey
      by_cases heq : key = c.key
      · exact heq ▸ hc
      · rw [← AList.lookup_isSome, lookup_after_of_ne d.values heq, AList.lookup_isSome] at hkey
        exact h.known key hkey
    · intro m hm key hkey
      exact mem_after c (h.parsed m hm key hkey)
    · intro key hkey
      have hold := h.value key hkey
      by_cases heq : key = c.key
      · subst heq
        rw [lastWritten_self, ← hold]
        exact lookup_after_self d.values c
      · rw [lastWritten_of_ne heq, ← hold]
        exact congrArg (Option.getD · []) (lookup_after_of_ne d.values heq)
  · rw [call_unlisted hc]
    refine ⟨h.made, h.keys, h.known, h.parsed, ?_⟩
    intro key hkey
    have hne : key ≠ c.key := by
      intro heq
      exact hc (heq ▸ hkey)
    rw [lastWritten_of_ne hne]
    exact h.value key hkey

theorem coherent_of_keyedBy {base : Base} {fs : List (Bytes × Bytes)} {calls : List KeyedCall}
    {d : KeyValDict} (h : KeyedBy base fs calls d) : Coherent base fs calls d where
  made := h.made
  keys := h.keys
  known := h.known
  parsed := h.parsed
  value := by
    intro key hkey
    refine ⟨?_, h.value key hkey⟩
    unfold KeyValDict.constIndex getValue
    rw [if_pos hkey]
    cases d.values.lookup key <;> rfl
  read := by
    intro key
    rw [call, KeyValDict.index, KeyValDict.constIndex]
    by_cases hkey : d.hasKey key
    · rw [if_pos hkey, if_pos hkey]
      dsimp only
      rw [emplace_lookup, if_pos rfl]
      cases d.values.lookup key <;> rfl
    · rw [if_neg hkey, if_neg hkey]
  returns := by
    intro c hc
    obtain ⟨val, hcall⟩ := call_listed hc
    exact ⟨val, by rw [hcall]⟩
  throws := fun c hc => call_unlisted hc
  others := by
    intro c key hne
    by_cases hc : d.hasKey c.key
    · obtain ⟨val, hcall⟩ := call_listed hc
      rw [hcall]
      exact lookup_after_of_ne d.values hne
    · rw [call_unlisted hc]
  text := toString_eq fun key hkey => h.value key (hasKey_iff.mpr hkey)

/-! ## Runs -/

theorem faithful_interface : KeyValDict.interface.Faithful where
  copy := by
    intro a b h
    cases h
    rfl
  assign := by
    intro a b r h
    cases h
    rfl

theorem keyedBy_construct {base : Base} {d : KeyValDict}
    (hbase : ∀ m, base = .message m → EOM <:+ m) (h : KeyValDict.construct base = .ok d) :
    ∃ fs, KeyedBy base fs [] d := by
  cases base with
  | keys keys =>
      cases h
      exact ⟨_, keyedBy_keys keys⟩
  | message m =>
      have hclosed : EOR <:+ m := (show EOR <:+ EOM by decide).trans (hbase m rfl)
      obtain ⟨fs, rest, hfields, hread⟩ := exists_fields_of_suffix hclosed
      obtain rfl : d = ofPairs fs := Except.ok.inj (h.symm.trans hread)
      exact ⟨fs, keyedBy_message hfields⟩

/--
**The keys and the values of a dictionary never drift apart.**

In every run of a program that makes dictionaries from messages and key lists, calls them
and copies them onto each other, nothing throws but the calls at a key that is not
listed, and every dictionary is consistent with what it was made from and the calls made
on it.
-/
theorem keys_and_values_agree {ι : Type} [DecidableEq ι]
    (ops : List (Objects.Op ι Base KeyedCall))
    (hmessages : ∀ i m, Objects.Op.construct i (.message m) ∈ ops → EOM <:+ m) :
    (∀ f, Objects.run KeyValDict.interface ops = .error f → f = .noObject)
      ∧ ∀ s, Objects.run KeyValDict.interface ops = .ok s → ∀ i d, s i = some d →
        ∃ l fs, Objects.lineage ops i = some l ∧ Coherent l.base fs l.calls d := by
  constructor
  · intro f hrun
    refine Objects.run_fails_noObject ?_ (fun a => ⟨_, rfl⟩) (fun a b => ⟨_, rfl⟩) hrun
    intro i base hi
    cases base with
    | keys keys => exact ⟨ofKeys keys, rfl⟩
    | message m => exact ofMessage_ok (hmessages i m hi)
  · intro s hrun i d hi
    obtain ⟨l, hl, fs, h⟩ := Objects.run_rule
      (P := fun base calls d => ∃ fs, KeyedBy base fs calls d) faithful_interface
      (fun i base d hop h => keyedBy_construct (fun m hm => hmessages i m (hm ▸ hop)) h)
      (fun base calls d c ⟨fs, h⟩ => ⟨fs, keyedBy_call h c⟩) hrun hi
    exact ⟨l, fs, hl, coherent_of_keyedBy h⟩

/-- A message with a repeated key is changed, copied over a key list, and both are changed again. -/
def copiedDict : List (Objects.Op Nat Base KeyedCall) :=
  [.construct 0 (.message (ascii "A: x\r\nA: y\r\nB: \r\n\r\n")),
    .construct 1 (.keys [ascii "A", ascii "A"]),
    .call 0 (.setValue (ascii "B") (ascii "z")),
    .call 1 (.assign (ascii "C") (ascii "v")),
    .copyAssign 1 0,
    .call 1 (.index (ascii "A")),
    .call 0 (.assign (ascii "A") (ascii "w"))]

theorem keys_and_values_agree_copied :
    ∃ s d, Objects.run KeyValDict.interface copiedDict = .ok s
      ∧ s 1 = some d ∧ ∃ l fs, Objects.lineage copiedDict 1 = some l
        ∧ Coherent l.base fs l.calls d := by
  have hmessages : ∀ i m, Objects.Op.construct i (.message m) ∈ copiedDict → EOM <:+ m := by
    intro i m h
    simp [copiedDict] at h
    rw [h.2]
    decide
  exact ⟨_, _, rfl, rfl, (keys_and_values_agree copiedDict hmessages).2 _ rfl 1 _ rfl⟩

end CppAmi.Proof
