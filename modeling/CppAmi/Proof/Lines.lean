import CppAmi.Proof.Parse

/-!
# When parsing is line by line

`set_message` looks for the next separator in all that is left of the message. A line
without one is then no line of its own: it becomes the beginning of the next key, if
there is a separator behind it at all. So the fields are those of the lines exactly
when no line without a separator stands before a line with one
(`reads_line_by_line_iff`).
-/

namespace CppAmi.Proof

open CppAmi KeyValDict Record

/-! ## Lines -/

theorem lines_append {l : Bytes} (hl : ¬ EOR <:+: l) (s : Bytes) :
    lines (l ++ EOR ++ s) = l :: lines s := by
  induction l with
  | nil => rfl
  | cons b l ih =>
      have htail : ¬ EOR <:+: l := fun h => hl (h.trans (List.suffix_cons b l).isInfix)
      -- the first two bytes are no `EOR`
      obtain ⟨c, t, hct, hne⟩ : ∃ c t, l ++ EOR ++ s = c :: t ∧ [b, c] ≠ EOR := by
        cases l with
        | nil =>
            refine ⟨13, 10 :: s, rfl, ?_⟩
            intro heq
            exact absurd (List.cons.inj (List.cons.inj heq).2).1 (by decide)
        | cons c t =>
            refine ⟨c, t ++ EOR ++ s, rfl, ?_⟩
            intro heq
            exact hl ⟨[], t, by rw [← heq]; rfl⟩
      have hrec := ih htail
      rw [hct] at hrec
      show lines (b :: (l ++ EOR ++ s)) = _
      rw [hct, lines, if_neg hne, hrec]
      rfl

theorem lines_flatMap {ls : List Bytes} (h : ∀ l ∈ ls, ¬ EOR <:+: l) :
    lines (ls.flatMap (· ++ EOR)) = ls := by
  induction ls with
  | nil => rfl
  | cons l ls ih =>
      rw [List.flatMap_cons, lines_append (h l List.mem_cons_self),
        ih fun l' hl' => h l' (List.mem_cons_of_mem l hl')]

/-- A text that ends with an `EOR` is its lines. -/
theorem exists_lines {m : Bytes} (hm : EOR <:+ m) :
    ∃ ls : List Bytes, (∀ l ∈ ls, ¬ EOR <:+: l) ∧ ls.flatMap (· ++ EOR) = m := by
  obtain ⟨u, rfl⟩ := hm
  obtain ⟨ls, rest, hcat, hls, hrest⟩ := Framing.exists_pieces EOR_ne_nil u
  refine ⟨ls ++ [rest], ?_, ?_⟩
  · intro l hl
    rcases List.mem_append.mp hl with hl | hl
    · exact hls l hl
    · rwa [List.mem_singleton.mp hl]
  · rw [List.flatMap_append, List.flatMap_singleton, ← List.append_assoc, hcat]

theorem lineField_none {l : Bytes} (h : ¬ SEP <:+: l) : lineField l = none := by
  rw [lineField, (Search.find_eq_none_iff_absent SEP_ne_nil).mpr h, Option.map_none]

theorem lineField_some {l : Bytes} (h : SEP <:+: l) :
    ∃ k v, k ++ SEP ++ v = l ∧ ¬ SEP <:+: k ∧ lineField l = some (k, v) := by
  cases hf : Search.find SEP l with
  | none => exact absurd h ((Search.find_eq_none_iff_absent SEP_ne_nil).mp hf)
  | some i =>
      obtain ⟨k, v, rfl, rfl, hk⟩ := Search.find_split SEP_ne_nil hf
      refine ⟨k, v, rfl, hk, ?_⟩
      rw [lineField, hf, Option.map_some, List.append_assoc, List.take_left, ← List.append_assoc,
        ← List.length_append, List.drop_left]

/-- A line is a field up to its end. -/
theorem line_eq_field {k v : Bytes} (s : Bytes) :
    k ++ SEP ++ v ++ EOR ++ s = encodeField SEP EOR (k, v) ++ s := rfl

theorem value_of_line {k v : Bytes} (h : ¬ EOR <:+: k ++ SEP ++ v) : ¬ EOR <:+: v :=
  fun hv => h (hv.trans (List.suffix_append (k ++ SEP) v).isInfix)

/-! ## The two readings -/

/-- Where the separators come first, the fields that are read are those of the lines. -/
theorem fields_of_separatorsFirst {ls : List Bytes} (hls : ∀ l ∈ ls, ¬ EOR <:+: l)
    (hord : SeparatorsFirst ls) :
    ∃ rest, Fields SEP EOR (ls.flatMap (· ++ EOR)) (ls.filterMap lineField) rest := by
  induction ls with
  | nil => exact ⟨[], Fields.nil (by decide)⟩
  | cons l ls ih =>
      obtain ⟨hfirst, hord⟩ := List.pairwise_cons.mp hord
      obtain ⟨rest, h⟩ := ih (fun l' hl' => hls l' (List.mem_cons_of_mem l hl')) hord
      by_cases hsep : SEP <:+: l
      · obtain ⟨k, v, rfl, hk, hfield⟩ := lineField_some hsep
        rw [List.filterMap_cons_some hfield, List.flatMap_cons, line_eq_field]
        exact ⟨rest, Fields.cons hk (value_of_line (hls _ List.mem_cons_self)) h⟩
      · -- neither this line nor one behind it has a separator
        have hnone : ∀ l' ∈ l :: ls, ¬ SEP <:+: l' := by
          intro l' hl'
          rcases List.mem_cons.mp hl' with rfl | hl'
          · exact hsep
          · exact fun h => hsep (hfirst l' hl' h)
        have hempty : (l :: ls).filterMap lineField = [] := by
          rw [List.filterMap_eq_nil_iff]
          exact fun l' hl' => lineField_none (hnone l' hl')
        rw [hempty]
        refine ⟨_, Fields.nil ?_⟩
        intro h
        obtain ⟨l', hl', hsep'⟩ := exists_line delimiters h
        exact hnone l' hl' hsep'

/-- A line without a separator goes into the key of the first field there is. -/
theorem line_in_key {l s rest : Bytes} {f : Bytes × Bytes} {fs : List (Bytes × Bytes)}
    (hsep : ¬ SEP <:+: l) (h : Fields SEP EOR (l ++ EOR ++ s) (f :: fs) rest) :
    l ++ EOR <+: f.1 := by
  have hcat := h.concat
  rw [encode_cons, List.append_assoc] at hcat
  have hfound := find_sep delimiters (h.keys f List.mem_cons_self) (encode SEP EOR fs ++ rest)
  have hocc := ((Search.find_eq_some_iff SEP_ne_nil).mp hfound).1
  rw [hcat] at hocc
  rcases sep_beside delimiters hocc with hin | ⟨j, hj, _⟩
  · exact absurd (Search.infix_iff_occursAt.mpr ⟨_, hin⟩) hsep
  · have hkey : f.1 <+: l ++ EOR ++ s := by
      rw [← hcat]
      unfold encodeField
      simp only [List.append_assoc]
      exact List.prefix_append _ _
    exact List.prefix_of_prefix_length_le (List.prefix_append _ _) hkey (by omega)

/-- Where no key reaches over the end of a line, the separators come first. -/
theorem separatorsFirst_of_fields {ls : List Bytes} {fs : List (Bytes × Bytes)} {rest : Bytes}
    (hls : ∀ l ∈ ls, ¬ EOR <:+: l) (h : Fields SEP EOR (ls.flatMap (· ++ EOR)) fs rest)
    (hkeys : ∀ f ∈ fs, ¬ EOR <:+: f.1) : SeparatorsFirst ls := by
  induction ls generalizing fs rest with
  | nil => exact List.Pairwise.nil
  | cons l ls ih =>
      have hls' : ∀ l' ∈ ls, ¬ EOR <:+: l' := fun l' hl' => hls l' (List.mem_cons_of_mem l hl')
      by_cases hsep : SEP <:+: l
      · obtain ⟨k, v, rfl, hk, _⟩ := lineField_some hsep
        refine List.pairwise_cons.mpr ⟨fun _ _ _ => hsep, ?_⟩
        rw [List.flatMap_cons, line_eq_field] at h
        obtain ⟨gs, rfl, hgs⟩ := h.uncons delimiters hk (value_of_line (hls _ List.mem_cons_self))
        exact ih hls' hgs fun g hg => hkeys g (List.mem_cons_of_mem _ hg)
      · -- a field would have a key with this line in it
        have hnil : fs = [] := by
          cases fs with
          | nil => rfl
          | cons f fs =>
              rw [List.flatMap_cons] at h
              have hpre := line_in_key hsep h
              exact absurd ((List.suffix_append l EOR).isInfix.trans hpre.isInfix)
                (hkeys f List.mem_cons_self)
        subst hnil
        have hrest := h.concat
        rw [encode_nil, List.nil_append] at hrest
        have hnone : ∀ l' ∈ l :: ls, ¬ SEP <:+: l' := by
          intro l' hl' hsep'
          refine h.tail (hsep'.trans ?_)
          rw [hrest, List.flatMap_def]
          exact (List.prefix_append l' EOR).isInfix.trans
            (List.infix_of_mem_flatten (List.mem_map_of_mem hl'))
        refine List.pairwise_of_forall_mem_list ?_
        intro l₁ _ l₂ hl₂ hsep₂
        exact absurd hsep₂ (hnone l₂ hl₂)

/--
**Parsing is line by line exactly when no line without a separator comes before a line
with one.**

Otherwise the line without a separator is swallowed, with its end, by the key of the
next line that has one, and that line's own key is not in the dictionary.
-/
theorem reads_line_by_line_iff (m : Bytes) (hm : EOM <:+ m) :
    ∃ d, ofMessage m = .ok d ∧ (ReadsLineByLine m d ↔ SeparatorsFirst (lines m)) := by
  have hclosed : EOR <:+ m := (show EOR <:+ EOM by decide).trans hm
  obtain ⟨ls, hls, rfl⟩ := exists_lines hclosed
  obtain ⟨fs, rest, h, hfs⟩ := exists_fields_of_suffix hclosed
  refine ⟨ofPairs fs, hfs, ?_⟩
  unfold ReadsLineByLine
  rw [lines_flatMap hls, orderedKeys_ofPairs]
  constructor
  · intro hread
    refine separatorsFirst_of_fields hls h ?_
    intro f hf
    -- every key is one of a line
    have hmem : f.1 ∈ (ls.filterMap lineField).map Prod.fst := by
      rw [← hread.1]
      exact List.mem_map_of_mem hf
    obtain ⟨g, hg, hkey⟩ := List.mem_map.mp hmem
    obtain ⟨l, hl, hfield⟩ := List.mem_filterMap.mp hg
    by_cases hsep : SEP <:+: l
    · obtain ⟨k, v, rfl, _, hfield'⟩ := lineField_some hsep
      rw [hfield] at hfield'
      cases hfield'
      rw [← hkey]
      exact fun h => hls _ hl (h.trans ⟨[], SEP ++ v, by simp⟩)
    · rw [lineField_none hsep] at hfield
      cases hfield
  · intro hord
    obtain ⟨rest', h'⟩ := fields_of_separatorsFirst hls hord
    obtain ⟨rfl, _⟩ := h.unique delimiters h'
    exact ⟨rfl, getValue_ofPairs _⟩

/-- The rule at a message whose only line without a separator comes last. -/
theorem read_line_by_line :
    ∃ d, ofMessage (ascii "ActionID: 7\r\nFoo\r\n\r\n") = .ok d
      ∧ (ReadsLineByLine (ascii "ActionID: 7\r\nFoo\r\n\r\n") d
        ↔ SeparatorsFirst (lines (ascii "ActionID: 7\r\nFoo\r\n\r\n"))) :=
  reads_line_by_line_iff (ascii "ActionID: 7\r\nFoo\r\n\r\n") (by decide)

/-- A line without a separator swallows the ActionID line behind it. -/
theorem actionId_swallowed :
    EOM <:+ ascii "Foo\r\nActionID: 7\r\n\r\n"
      ∧ lines (ascii "Foo\r\nActionID: 7\r\n\r\n") = [ascii "Foo", ascii "ActionID: 7", []]
      ∧ ∃ d, ofMessage (ascii "Foo\r\nActionID: 7\r\n\r\n") = .ok d
        ∧ d.orderedKeys = [ascii "Foo\r\nActionID"]
        ∧ d.getValue (ascii "ActionID") = none
        ∧ ¬ ReadsLineByLine (ascii "Foo\r\nActionID: 7\r\n\r\n") d := by
  have hlines : lines (ascii "Foo\r\nActionID: 7\r\n\r\n")
      = [ascii "Foo", ascii "ActionID: 7", []] := by decide
  have hfields : Fields SEP EOR (ascii "Foo\r\nActionID: 7\r\n\r\n")
      [(ascii "Foo\r\nActionID", ascii "7")] EOR :=
    ⟨by decide, by decide, by decide, by decide⟩
  refine ⟨by decide, hlines, _, ofMessage_fields (by decide) hfields, by decide, ?_, ?_⟩
  · rw [getValue_ofPairs]
    decide
  · intro h
    have hkeys := h.1
    rw [hlines] at hkeys
    exact absurd hkeys (by decide)

end CppAmi.Proof
