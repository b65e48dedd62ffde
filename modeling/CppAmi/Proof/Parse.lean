import CppAmi.Proof.ParseSafe
import CppAmi.Spec.Message

/-!
# What `set_message` reads

`set_message` reads a text in which every separator is closed as the fields of
`Record.Fields`, whatever the text around them looks like (`ofMessage_fields`). From
that, `reread_reprint` says that printing gives the dictionary back, `parse_print_iff`
for which messages it gives the text back, and `reads_line_by_line_iff` for which ones
the fields are those of the lines.
-/

namespace CppAmi.Proof

open CppAmi KeyValDict Record

theorem delimiters : Delimiters SEP EOR where
  sep_ne := SEP_ne_nil
  term_ne := EOR_ne_nil
  sep_unbordered := by decide
  term_unbordered := by decide
  disjoint := Search.disjoint_of_all (by decide)

/-- `EOM` is a blank line. -/
theorem EOM_eq : EOM = EOR ++ EOR := rfl

/-! ## The dictionary of fields read in order -/

theorem lookup_cons_ite {f : Bytes × Bytes} {fs : List (Bytes × Bytes)} (key : Bytes) :
    (f :: fs).lookup key = (if key = f.1 then some f.2 else none).or (fs.lookup key) := by
  obtain ⟨k, v⟩ := f
  rw [List.lookup_cons]
  by_cases h : key = k
  · simp [h]
  · have hb : (key == k) = false := beq_eq_false_iff_ne.mpr h
    simp [h, hb]

theorem foldl_emplace_lookup (fs : List (Bytes × Bytes)) (m : UMap Bytes) (key : Bytes) :
    (fs.foldl (fun values f => values.emplace f.1 f.2) m).lookup key
      = (m.lookup key).or (fs.lookup key) := by
  induction fs generalizing m with
  | nil => simp
  | cons f fs ih =>
      rw [List.foldl_cons, ih, emplace_lookup, lookup_cons_ite, Option.or_assoc]

@[simp] theorem getValue_ofPairs (fs : List (Bytes × Bytes)) (key : Bytes) :
    (ofPairs fs).getValue key = fs.lookup key := by
  unfold getValue ofPairs
  rw [foldl_emplace_lookup, AList.lookup_empty, Option.none_or]

@[simp] theorem orderedKeys_ofPairs (fs : List (Bytes × Bytes)) :
    (ofPairs fs).orderedKeys = fs.map Prod.fst := rfl

/-- A value that was looked up is one of the fields. -/
theorem mem_of_lookup {fs : List (Bytes × Bytes)} {key v : Bytes} (h : fs.lookup key = some v) :
    (key, v) ∈ fs := by
  obtain ⟨l₁, l₂, rfl, _⟩ := List.lookup_eq_some_iff.mp h
  simp

/-- A key that is listed has a value, that of one of its fields. -/
theorem lookup_of_mem {fs : List (Bytes × Bytes)} {f : Bytes × Bytes} (h : f ∈ fs) :
    ∃ v, fs.lookup f.1 = some v ∧ (f.1, v) ∈ fs := by
  induction fs with
  | nil => cases h
  | cons g fs ih =>
      rw [lookup_cons_ite]
      by_cases heq : f.1 = g.1
      · refine ⟨g.2, by simp [heq], ?_⟩
        rw [heq]
        exact List.mem_cons_self
      · have hne : f ≠ g := fun hfg => heq (by rw [hfg])
        obtain ⟨v, hv, hmem⟩ := ih ((List.mem_cons.mp h).resolve_left hne)
        exact ⟨v, by simp [heq, hv], List.mem_cons_of_mem g hmem⟩

/-- A dictionary prints its keys in order, each with its value. -/
theorem toString_eq {d : KeyValDict} {value : Bytes → Bytes}
    (h : ∀ key ∈ d.orderedKeys, (d.values.lookup key).getD [] = value key) :
    d.toString = messageText (d.orderedKeys.map fun key => (key, value key)) := by
  unfold KeyValDict.toString messageText encode
  rw [List.flatMap_map]
  congr 1
  refine List.flatMap_congr ?_
  intro key hkey
  rw [h key hkey]
  rfl

theorem toString_ofPairs (fs : List (Bytes × Bytes)) :
    (ofPairs fs).toString = messageText (printedFields fs) := by
  have hvalue : ∀ key ∈ (ofPairs fs).orderedKeys,
      ((ofPairs fs).values.lookup key).getD [] = firstValue fs key := by
    intro key _
    show ((ofPairs fs).getValue key).getD [] = _
    rw [getValue_ofPairs]
    rfl
  rw [toString_eq hvalue, orderedKeys_ofPairs, List.map_map]
  rfl

/-- Only the first value of a key goes into the map. -/
theorem foldl_emplace_congr (val : Bytes → Bytes) (fs : List (Bytes × Bytes)) (m : UMap Bytes)
    (h : ∀ f ∈ fs, f.1 ∉ m → ∀ v, fs.lookup f.1 = some v → val f.1 = v) :
    (fs.map fun f => (f.1, val f.1)).foldl (fun values f => values.emplace f.1 f.2) m
      = fs.foldl (fun values f => values.emplace f.1 f.2) m := by
  induction fs generalizing m with
  | nil => rfl
  | cons f fs ih =>
      have hstep : m.emplace f.1 (val f.1) = m.emplace f.1 f.2 := by
        unfold UMap.emplace
        split
        · rfl
        · rename_i hnew
          rw [h f List.mem_cons_self hnew f.2 (by rw [lookup_cons_ite]; simp)]
      rw [List.map_cons, List.foldl_cons, List.foldl_cons, hstep]
      refine ih _ ?_
      intro g hg hnew v hv
      -- a key that is still missing is neither in `m` nor the one just put in
      have hnone := AList.lookup_eq_none.mpr hnew
      rw [emplace_lookup, Option.or_eq_none_iff] at hnone
      have hne : g.1 ≠ f.1 := by
        intro heq
        rw [if_pos heq] at hnone
        cases hnone.2
      refine h g (List.mem_cons_of_mem f hg) (AList.lookup_eq_none.mp hnone.1) v ?_
      rw [lookup_cons_ite, if_neg hne, Option.none_or, hv]

/-- Printing does not change the dictionary. -/
theorem ofPairs_printedFields (fs : List (Bytes × Bytes)) :
    ofPairs (printedFields fs) = ofPairs fs := by
  have hvalues := foldl_emplace_congr (firstValue fs) fs ∅ (by
    intro f _ _ v hv
    unfold firstValue
    rw [hv, Option.getD_some])
  have hkeys : (printedFields fs).map Prod.fst = fs.map Prod.fst := by
    simp [printedFields, Function.comp_def]
  unfold ofPairs
  rw [hkeys]
  congr 1

theorem printedFields_eq_iff (fs : List (Bytes × Bytes)) :
    printedFields fs = fs ↔ RepeatsAgree fs := by
  have hmap : printedFields fs = fs ↔ ∀ f ∈ fs, (f.1, firstValue fs f.1) = f := by
    have hid := List.map_inj_left (l := fs) (f := fun f => (f.1, firstValue fs f.1)) (g := id)
    rwa [List.map_id] at hid
  rw [hmap]
  constructor
  · intro h f hf g hg heq
    have hf2 := congrArg Prod.snd (h f hf)
    have hg2 := congrArg Prod.snd (h g hg)
    rw [← hf2, ← hg2, heq]
  · intro h f hf
    obtain ⟨v, hv, hmem⟩ := lookup_of_mem hf
    have hagree := h f hf (f.1, v) hmem rfl
    rw [firstValue, hv, Option.getD_some]
    exact Prod.ext rfl hagree.symm

/-! ## The loop -/

/-- Every field has its delimiters, so there are no more fields than bytes. -/
theorem length_le_encode (fs : List (Bytes × Bytes)) : fs.length ≤ (encode SEP EOR fs).length := by
  induction fs with
  | nil => exact Nat.le_refl 0
  | cons f fs ih =>
      rw [encode_cons, List.length_append, List.length_cons]
      have := List.length_pos_iff.mpr (encodeField_ne_nil delimiters f)
      omega

/-- One iteration of the loop, at the beginning of a field. -/
theorem parseField_field {f : Bytes × Bytes} (hkey : ¬ SEP <:+: f.1) (hval : ¬ EOR <:+: f.2)
    (pre s : Bytes) (d : KeyValDict) :
    parseField (pre ++ (encodeField SEP EOR f ++ s)) pre.length d
      = .ok (some ((pre ++ encodeField SEP EOR f).length,
          ⟨d.orderedKeys ++ [f.1], d.values.emplace f.1 f.2⟩)) := by
  have hkeyEnd : find (pre ++ (encodeField SEP EOR f ++ s)) SEP pre.length
      = some (pre.length + f.1.length) := by
    unfold find
    rw [Search.findFrom_append_left, find_sep delimiters hkey, Option.map_some, Nat.add_comm]
  have hcat : pre ++ (encodeField SEP EOR f ++ s)
      = (pre ++ f.1 ++ SEP) ++ (f.2 ++ EOR ++ s) := by
    simp [encodeField]
  have hbeg : (pre ++ f.1 ++ SEP).length = pre.length + f.1.length + 2 := by
    simp only [List.length_append, length_SEP]
  have hvalEnd : find (pre ++ (encodeField SEP EOR f ++ s)) EOR (pre.length + f.1.length + 2)
      = some (pre.length + f.1.length + 2 + f.2.length) := by
    unfold find
    rw [hcat, ← hbeg, Search.findFrom_append_left, find_term delimiters hval, Option.map_some,
      Nat.add_comm]
  have hin : pre.length + f.1.length + 2 + f.2.length
      ≤ (pre ++ (encodeField SEP EOR f ++ s)).length := by
    rw [hcat]
    simp only [List.length_append, length_SEP, length_EOR]
    omega
  have hkeyText : ((pre ++ (encodeField SEP EOR f ++ s)).drop pre.length).take
      (pre.length + f.1.length - pre.length) = f.1 := by
    rw [List.drop_left, Nat.add_sub_cancel_left]
    simp [encodeField]
  have hvalText : ((pre ++ (encodeField SEP EOR f ++ s)).drop (pre.length + f.1.length + 2)).take
      (pre.length + f.1.length + 2 + f.2.length - (pre.length + f.1.length + 2)) = f.2 := by
    rw [hcat, ← hbeg, List.drop_left, Nat.add_sub_cancel_left]
    simp
  -- the next iteration starts behind this field
  have hnext : pre.length + f.1.length + 2 + f.2.length + 2
      = (pre ++ encodeField SEP EOR f).length := by
    unfold encodeField
    simp only [List.length_append, length_SEP, length_EOR]
    omega
  rw [parseField_eq d hkeyEnd hvalEnd (Nat.le_add_right _ _) (Nat.le_add_right _ _) hin, hkeyText,
    hvalText, hnext]

/-- **The loop lemma:** from the start of a field on, the fields that are there are read. -/
theorem parseFields_fields {fs : List (Bytes × Bytes)} {s rest : Bytes}
    (h : Fields SEP EOR s fs rest) {fuel : Nat} (hfuel : fs.length < fuel) (pre : Bytes)
    (d : KeyValDict) :
    parseFields (pre ++ s) fuel pre.length d
      = .ok ⟨d.orderedKeys ++ fs.map Prod.fst,
          fs.foldl (fun values f => values.emplace f.1 f.2) d.values⟩ := by
  induction fs generalizing fuel pre s d with
  | nil =>
      obtain ⟨fuel, rfl⟩ := Nat.exists_eq_add_of_lt hfuel
      have hs := h.concat
      rw [encode_nil, List.nil_append] at hs
      subst hs
      have hfind : find (pre ++ rest) SEP pre.length = none := by
        unfold find
        rw [Search.findFrom_append_left,
          (Search.find_eq_none_iff_absent SEP_ne_nil).mpr h.tail, Option.map_none]
      have hstop : parseField (pre ++ rest) pre.length d = .ok none := by
        unfold parseField
        rw [hfind]
        split <;> rfl
      simp [parseFields, hstop]
  | cons f fs ih =>
      obtain ⟨fuel, rfl⟩ := Nat.exists_eq_add_of_lt hfuel
      obtain rfl := h.concat
      have hstep := parseField_field (h.keys f List.mem_cons_self) (h.vals f List.mem_cons_self)
        pre (encode SEP EOR fs ++ rest) d
      have hshort : fs.length < (f :: fs).length + fuel := by
        rw [List.length_cons]
        omega
      have hrest := ih h.behind hshort (pre ++ encodeField SEP EOR f)
        ⟨d.orderedKeys ++ [f.1], d.values.emplace f.1 f.2⟩
      rw [encode_cons, List.append_assoc, parseFields, hstep]
      dsimp only
      rw [← List.append_assoc pre, hrest]
      simp

/-- **`set_message` reads the fields.** -/
theorem ofMessage_fields {fs : List (Bytes × Bytes)} {m rest : Bytes} (hm : m ≠ [])
    (h : Fields SEP EOR m fs rest) : ofMessage m = .ok (ofPairs fs) := by
  have hlen : fs.length < m.length + 1 := by
    have := length_le_encode fs
    rw [← h.concat, List.length_append]
    omega
  have hloop := parseFields_fields h hlen [] ⟨[], ∅⟩
  rw [ofMessage, setMessage, if_neg hm]
  exact hloop

/-! ## Parsing and printing -/

/-- A printed message is one message for the framer. -/
theorem endsOnce_messageText (fs : List (Bytes × Bytes)) (hne : fs ≠ []) (hclean : Clean EOR fs)
    (hvals : ∀ f ∈ fs, ¬ EOR <:+: f.2) : Framing.EndsOnce EOM (messageText fs) :=
  endsOnce_encode delimiters hne hclean hvals

theorem encode_injective {fs gs : List (Bytes × Bytes)}
    (hkeys : ∀ f ∈ fs, ¬ SEP <:+: f.1) (hvals : ∀ f ∈ fs, ¬ EOR <:+: f.2)
    (hkeys' : ∀ f ∈ gs, ¬ SEP <:+: f.1) (hvals' : ∀ f ∈ gs, ¬ EOR <:+: f.2)
    (h : messageText fs = messageText gs) : fs = gs := by
  have hblank : ¬ SEP <:+: EOR := by decide
  have hread : Fields SEP EOR (messageText fs) fs EOR := ⟨rfl, hkeys, hvals, hblank⟩
  have hread' : Fields SEP EOR (messageText fs) gs EOR := ⟨h.symm, hkeys', hvals', hblank⟩
  exact (hread.unique delimiters hread').1

/-- What is printed for the fields has keys and values of the fields. -/
theorem printedFields_mem {fs : List (Bytes × Bytes)} {f : Bytes × Bytes}
    (h : f ∈ printedFields fs) : f ∈ fs := by
  obtain ⟨g, hg, rfl⟩ := List.mem_map.mp h
  obtain ⟨v, hv, hmem⟩ := lookup_of_mem hg
  rwa [firstValue, hv, Option.getD_some]

/-- Reading a printed message gives its fields. -/
theorem fields_messageText {fs : List (Bytes × Bytes)} (hkeys : ∀ f ∈ fs, ¬ SEP <:+: f.1)
    (hvals : ∀ f ∈ fs, ¬ EOR <:+: f.2) : Fields SEP EOR (messageText fs) fs EOR :=
  ⟨rfl, hkeys, hvals, by decide⟩

theorem messageText_ne_nil (fs : List (Bytes × Bytes)) : messageText fs ≠ [] :=
  List.append_ne_nil_of_right_ne_nil _ EOR_ne_nil

/-- A text that ends with an `EOR` is read as some fields. -/
theorem exists_fields_of_suffix {m : Bytes} (hm : EOR <:+ m) :
    ∃ fs rest, Fields SEP EOR m fs rest ∧ ofMessage m = .ok (ofPairs fs) := by
  obtain ⟨fs, rest, h⟩ := exists_fields delimiters (closed_of_suffix delimiters hm)
  have hne : m ≠ [] := by
    intro hnil
    subst hnil
    exact absurd hm (by decide)
  exact ⟨fs, rest, h, ofMessage_fields hne h⟩

/-- **What was read, and printed, reads as it was.** -/
theorem ofMessage_toString {fs : List (Bytes × Bytes)} {m rest : Bytes}
    (h : Fields SEP EOR m fs rest) :
    ofMessage (ofPairs fs).toString = .ok (ofPairs fs) := by
  have hkeys : ∀ f ∈ printedFields fs, ¬ SEP <:+: f.1 :=
    fun f hf => h.keys f (printedFields_mem hf)
  have hvals : ∀ f ∈ printedFields fs, ¬ EOR <:+: f.2 :=
    fun f hf => h.vals f (printedFields_mem hf)
  rw [toString_ofPairs,
    ofMessage_fields (messageText_ne_nil _) (fields_messageText hkeys hvals), ofPairs_printedFields]

/--
**Printing a message that was read loses nothing the dictionary holds.**

Lines without a separator are gone and repeated values are replaced, but neither is in
the dictionary: reading the text again gives its keys and its values, and from the
first time on printing changes nothing.
-/
theorem reread_reprint (m : Bytes) (hm : EOM <:+ m) :
    ∃ d, ofMessage m = .ok d ∧ ofMessage d.toString = .ok d
      ∧ (reprint m).bind reprint = reprint m := by
  have hclosed : EOR <:+ m := (show EOR <:+ EOM by decide).trans hm
  obtain ⟨fs, rest, h, hread⟩ := exists_fields_of_suffix hclosed
  have hagain := ofMessage_toString h
  refine ⟨ofPairs fs, hread, hagain, ?_⟩
  unfold reprint
  rw [hread]
  show (ofMessage (ofPairs fs).toString).map KeyValDict.toString = _
  rw [hagain]

/-- The rule at a message with a repeated key, a line without a separator and an empty key. -/
theorem reread_reprint_stray :
    ∃ d, ofMessage (ascii "A: x: y\r\nA: z\r\nstray\r\nB: \n\r\n: v\r\n\r\n") = .ok d
      ∧ ofMessage d.toString = .ok d
      ∧ (reprint (ascii "A: x: y\r\nA: z\r\nstray\r\nB: \n\r\n: v\r\n\r\n")).bind reprint
        = reprint (ascii "A: x: y\r\nA: z\r\nstray\r\nB: \n\r\n: v\r\n\r\n") :=
  reread_reprint _ (by decide)

/--
**A message is printed as it was read exactly when repeated keys repeat their value.**

The map keeps the first value of a key, and the key is printed with it each time it
comes up.
-/
theorem parse_print_iff (fs : List (Bytes × Bytes))
    (hkeys : ∀ f ∈ fs, f.1 ≠ [] ∧ ¬ SEP <:+: f.1 ∧ ¬ EOR <:+: f.1)
    (hvals : ∀ f ∈ fs, ¬ EOR <:+: f.2) :
    ∃ d, ofMessage (messageText fs) = .ok d
      ∧ (d.toString = messageText fs ↔ RepeatsAgree fs) := by
  have hsep : ∀ f ∈ fs, ¬ SEP <:+: f.1 := fun f hf => (hkeys f hf).2.1
  refine ⟨ofPairs fs, ofMessage_fields (messageText_ne_nil fs) (fields_messageText hsep hvals), ?_⟩
  rw [toString_ofPairs, ← printedFields_eq_iff]
  constructor
  · intro h
    exact encode_injective (fun f hf => hsep f (printedFields_mem hf))
      (fun f hf => hvals f (printedFields_mem hf)) hsep hvals h
  · intro h
    rw [h]

/-- The rule at a message whose repeated key repeats its value. -/
theorem parse_print_repeated :
    ∃ d, ofMessage (messageText [(ascii "A", ascii "x"), (ascii "A", ascii "x")]) = .ok d
      ∧ (d.toString = messageText [(ascii "A", ascii "x"), (ascii "A", ascii "x")]
        ↔ RepeatsAgree [(ascii "A", ascii "x"), (ascii "A", ascii "x")]) :=
  parse_print_iff [(ascii "A", ascii "x"), (ascii "A", ascii "x")] (by decide) (by decide)

/-- Two lines of output under one key: the first is printed twice. -/
theorem output_lines_lost :
    (∀ f ∈ [(ascii "Output", ascii "x"), (ascii "Output", ascii "y")],
        f.1 ≠ [] ∧ ¬ SEP <:+: f.1 ∧ ¬ EOR <:+: f.1 ∧ ¬ EOR <:+: f.2)
      ∧ messageText [(ascii "Output", ascii "x"), (ascii "Output", ascii "y")]
          = ascii "Output: x\r\nOutput: y\r\n\r\n"
      ∧ (∃ d, ofMessage (ascii "Output: x\r\nOutput: y\r\n\r\n") = .ok d
          ∧ d.toString = ascii "Output: x\r\nOutput: x\r\n\r\n")
      ∧ ascii "Output: x\r\nOutput: x\r\n\r\n" ≠ ascii "Output: x\r\nOutput: y\r\n\r\n" := by
  have htext : messageText [(ascii "Output", ascii "x"), (ascii "Output", ascii "y")]
      = ascii "Output: x\r\nOutput: y\r\n\r\n" := by decide
  refine ⟨by decide, htext,
    ⟨ofPairs [(ascii "Output", ascii "x"), (ascii "Output", ascii "y")], ?_, ?_⟩, by decide⟩
  · rw [← htext]
    exact ofMessage_fields (messageText_ne_nil _) (fields_messageText (by decide) (by decide))
  · rw [toString_ofPairs]
    decide

end CppAmi.Proof
