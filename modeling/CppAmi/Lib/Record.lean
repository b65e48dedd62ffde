import CppAmi.Lib.Framing

/-!
# Records of separated fields

A record is written as fields, each `key ++ sep ++ value ++ term`, and what comes
behind them. `Fields sep term m fs rest` says `fs` and `rest` are what a reader finds
in `m` that looks for the next separator, and from there for the next terminator: a key
runs up to the first `sep` and a value up to the first `term`, and `rest` has no `sep`.

As long as the delimiters have nothing in common and do not overlap themselves
(`Delimiters`), a text that ends with `term` is read in one way only (`exists_fields`,
`Fields.unique`), and writing down what was read changes nothing in where the reader
cuts. `endsOnce_encode` says when a printed record, closed with one more `term`, is a
single message for a framer that looks for `term ++ term`.
-/

namespace Record

open Search Framing

variable {α : Type*}

/-- A key and a value. -/
abbrev Field (α : Type*) := List α × List α

/-- What makes two texts fit to delimit keys and values. -/
structure Delimiters (sep term : List α) : Prop where
  sep_ne : sep ≠ []
  term_ne : term ≠ []
  sep_unbordered : Unbordered sep
  term_unbordered : Unbordered term
  disjoint : List.Disjoint sep term

variable (sep term : List α)

def encodeField (f : Field α) : List α := f.1 ++ sep ++ f.2 ++ term

def encode (fs : List (Field α)) : List α := fs.flatMap (encodeField sep term)

/-- `fs` and `rest` are what is read in `m`. -/
structure Fields (m : List α) (fs : List (Field α)) (rest : List α) : Prop where
  concat : encode sep term fs ++ rest = m
  /-- A key ends at the first separator. -/
  keys : ∀ f ∈ fs, ¬ sep <:+: f.1
  /-- A value ends at the first terminator. -/
  vals : ∀ f ∈ fs, ¬ term <:+: f.2
  /-- No field is left. -/
  tail : ¬ sep <:+: rest

/-- No blank line comes up within or between the keys. -/
structure Clean (fs : List (Field α)) : Prop where
  keys : ∀ f ∈ fs, ¬ term ++ term <:+: f.1
  junctions : ∀ f ∈ fs.tail, ¬ term ++ term <:+: term ++ f.1

variable {sep term : List α}

@[simp] theorem encode_nil : encode sep term [] = [] := rfl

@[simp] theorem encode_cons (f : Field α) (fs : List (Field α)) :
    encode sep term (f :: fs) = encodeField sep term f ++ encode sep term fs := rfl

theorem encode_append (fs gs : List (Field α)) :
    encode sep term (fs ++ gs) = encode sep term fs ++ encode sep term gs := by
  unfold encode
  rw [List.flatMap_append]

theorem encodeField_ne_nil (hd : Delimiters sep term) (f : Field α) :
    encodeField sep term f ≠ [] := by
  unfold encodeField
  exact List.append_ne_nil_of_right_ne_nil _ hd.term_ne

/-- A record that is not empty ends with a terminator. -/
theorem encode_suffix {fs : List (Field α)} (hne : fs ≠ []) : term <:+ encode sep term fs := by
  obtain ⟨gs, g, rfl⟩ := (List.eq_nil_or_concat fs).resolve_left hne
  rw [List.concat_eq_append, encode_append, encode_cons, encode_nil, List.append_nil]
  unfold encodeField
  rw [← List.append_assoc]
  exact List.suffix_append _ term

/-! ## Reading is deterministic -/

theorem Fields.nil {m : List α} (h : ¬ sep <:+: m) : Fields sep term m [] m :=
  ⟨rfl, by simp, by simp, h⟩

theorem Fields.cons {f : Field α} {m rest : List α} {fs : List (Field α)} (hk : ¬ sep <:+: f.1)
    (hv : ¬ term <:+: f.2) (h : Fields sep term m fs rest) :
    Fields sep term (encodeField sep term f ++ m) (f :: fs) rest where
  concat := by rw [encode_cons, List.append_assoc, h.concat]
  keys := by
    intro g hg
    rcases List.mem_cons.mp hg with rfl | hg
    · exact hk
    · exact h.keys g hg
  vals := by
    intro g hg
    rcases List.mem_cons.mp hg with rfl | hg
    · exact hv
    · exact h.vals g hg
  tail := h.tail

/-- What is read behind the first field. -/
theorem Fields.behind {f : Field α} {m rest : List α} {fs : List (Field α)}
    (h : Fields sep term m (f :: fs) rest) :
    Fields sep term (encode sep term fs ++ rest) fs rest :=
  ⟨rfl, fun g hg => h.keys g (List.mem_cons_of_mem f hg),
    fun g hg => h.vals g (List.mem_cons_of_mem f hg), h.tail⟩

variable [DecidableEq α]

/-- Where the first key of a record ends. -/
theorem find_sep (hd : Delimiters sep term) {f : Field α} (hk : ¬ sep <:+: f.1) (s : List α) :
    find sep (encodeField sep term f ++ s) = some f.1.length := by
  unfold encodeField
  rw [List.append_assoc, List.append_assoc]
  exact find_append_self hd.sep_ne hd.sep_unbordered hk

/-- Where the value behind a separator ends. -/
theorem find_term (hd : Delimiters sep term) {f : Field α} (hv : ¬ term <:+: f.2) (s : List α) :
    find term (f.2 ++ term ++ s) = some f.2.length :=
  find_append_self hd.term_ne hd.term_unbordered hv

/-- A text that starts with a field is read as that field and what is behind it. -/
theorem Fields.uncons (hd : Delimiters sep term) {f : Field α} {s rest : List α}
    {fs : List (Field α)} (hk : ¬ sep <:+: f.1) (hv : ¬ term <:+: f.2)
    (h : Fields sep term (encodeField sep term f ++ s) fs rest) :
    ∃ gs, fs = f :: gs ∧ Fields sep term s gs rest := by
  have hfound := find_sep hd hk s
  cases fs with
  | nil =>
      -- the text has a separator
      have hrest := h.concat
      rw [encode_nil, List.nil_append] at hrest
      rw [← hrest, (find_eq_none_iff_absent hd.sep_ne).mpr h.tail] at hfound
      cases hfound
  | cons g gs =>
      have hfound' := find_sep hd (h.keys g List.mem_cons_self) (encode sep term gs ++ rest)
      rw [← List.append_assoc, ← encode_cons, h.concat, hfound] at hfound'
      have hcat := h.concat
      simp only [encode_cons, encodeField, List.append_assoc] at hcat
      obtain ⟨hkey, hcat⟩ := List.append_inj hcat (Option.some.inj hfound').symm
      have hcat := List.append_cancel_left hcat
      have hend := find_term hd hv s
      have hend' := find_term hd (h.vals g List.mem_cons_self) (encode sep term gs ++ rest)
      rw [List.append_assoc, hcat, ← List.append_assoc, hend] at hend'
      obtain ⟨hval, hcat⟩ := List.append_inj hcat (Option.some.inj hend').symm
      have hs := List.append_cancel_left hcat
      obtain rfl : g = f := Prod.ext hkey hval
      exact ⟨gs, rfl, hs ▸ h.behind⟩

/-- **A text is read in one way.** -/
theorem Fields.unique (hd : Delimiters sep term) {m rest rest' : List α}
    {fs fs' : List (Field α)} (h : Fields sep term m fs rest)
    (h' : Fields sep term m fs' rest') : fs = fs' ∧ rest = rest' := by
  induction fs generalizing m fs' with
  | nil =>
      have hm := h.concat
      cases fs' with
      | nil => exact ⟨rfl, hm.trans h'.concat.symm⟩
      | cons f' fs' =>
          rw [← h'.concat, encode_cons, List.append_assoc] at h
          obtain ⟨gs, hgs, _⟩ := h.uncons hd (h'.keys f' List.mem_cons_self)
            (h'.vals f' List.mem_cons_self)
          cases hgs
  | cons f fs ih =>
      rw [← h.concat, encode_cons, List.append_assoc] at h'
      obtain ⟨gs, rfl, hgs⟩ := h'.uncons hd (h.keys f List.mem_cons_self)
        (h.vals f List.mem_cons_self)
      obtain ⟨hfs, hrest⟩ := ih h.behind hgs
      exact ⟨by rw [hfs], hrest⟩

/-! ## What can be read -/

/-- Behind every separator there is a terminator. -/
def Closed (sep term m : List α) : Prop :=
  ∀ i, OccursAt sep m i → ∃ j, i + sep.length ≤ j ∧ OccursAt term m j

omit [DecidableEq α] in
theorem closed_of_suffix (hd : Delimiters sep term) {m : List α} (hm : term <:+ m) :
    Closed sep term m := by
  obtain ⟨u, rfl⟩ := hm
  intro i hi
  have hbound := hi.bound hd.sep_ne
  have hpos := List.length_pos_iff.mpr hd.sep_ne
  rw [List.length_append] at hbound
  rw [← List.append_nil (u ++ term)] at hi
  rcases hi.beside (List.disjoint_symm hd.disjoint) hd.term_ne hd.sep_ne with hleft | hright
  · refine ⟨u.length, hleft, ?_⟩
    simp [OccursAt]
  · omega

omit [DecidableEq α] in
theorem Closed.behind {u v : List α} (h : Closed sep term (u ++ v)) : Closed sep term v := by
  intro i hi
  obtain ⟨j, hij, hj⟩ := h (u.length + i) (occursAt_append_right.mpr hi)
  obtain ⟨k, rfl⟩ := Nat.exists_eq_add_of_le (show u.length ≤ j by omega)
  exact ⟨k, by omega, occursAt_append_right.mp hj⟩

/-- **A text in which every separator is closed can be read.** -/
theorem exists_fields (hd : Delimiters sep term) {m : List α} (hm : Closed sep term m) :
    ∃ fs rest, Fields sep term m fs rest := by
  induction hn : m.length using Nat.strong_induction_on generalizing m with
  | _ n ih =>
      cases hf : find sep m with
      | none => exact ⟨[], m, Fields.nil ((find_eq_none_iff_absent hd.sep_ne).mp hf)⟩
      | some i =>
          obtain ⟨key, s, rfl, hkey, hk⟩ := find_split hd.sep_ne hf
          -- the terminator that closes this separator
          obtain ⟨j, hij, hj⟩ := hm i ((find_eq_some_iff hd.sep_ne).mp hf).1
          obtain ⟨l, rfl⟩ := Nat.exists_eq_add_of_le hij
          rw [← hkey, ← List.length_append, occursAt_append_right] at hj
          cases hv : find term s with
          | none => exact absurd hj ((find_eq_none_iff hd.term_ne).mp hv l)
          | some k =>
              obtain ⟨val, t, rfl, _, hval⟩ := find_split hd.term_ne hv
              have hcat :
                  key ++ sep ++ (val ++ term ++ t) = encodeField sep term (key, val) ++ t := by
                simp [encodeField]
              rw [hcat] at hm hn ⊢
              have hpos := List.length_pos_iff.mpr (encodeField_ne_nil hd (key, val))
              obtain ⟨fs, rest, h⟩ := ih t.length (by
                rw [← hn, List.length_append]
                omega) hm.behind rfl
              exact ⟨(key, val) :: fs, rest, Fields.cons hk hval h⟩

/-! ## Lines -/

omit [DecidableEq α] in
/-- A separator does not reach over the end of a line. -/
theorem sep_beside (hd : Delimiters sep term) {l s : List α} {i : Nat}
    (h : OccursAt sep (l ++ term ++ s) i) :
    OccursAt sep l i ∨ ∃ j, i = (l ++ term).length + j ∧ OccursAt sep s j := by
  rcases h.beside (List.disjoint_symm hd.disjoint) hd.term_ne hd.sep_ne with hleft | hright
  · rw [List.append_assoc] at h
    exact Or.inl (h.of_append hleft)
  · rw [← List.length_append] at hright
    obtain ⟨j, rfl⟩ := Nat.exists_eq_add_of_le hright
    exact Or.inr ⟨j, rfl, occursAt_append_right.mp h⟩

omit [DecidableEq α] in
theorem exists_line (hd : Delimiters sep term) {ls : List (List α)}
    (h : sep <:+: ls.flatMap (· ++ term)) : ∃ l ∈ ls, sep <:+: l := by
  induction ls with
  | nil =>
      rw [List.flatMap_nil, List.infix_nil] at h
      exact absurd h hd.sep_ne
  | cons l ls ih =>
      obtain ⟨i, hi⟩ := infix_iff_occursAt.mp h
      rw [List.flatMap_cons] at hi
      rcases sep_beside hd hi with hl | ⟨j, _, hj⟩
      · exact ⟨l, List.mem_cons_self, infix_iff_occursAt.mpr ⟨i, hl⟩⟩
      · obtain ⟨l', hl', hsep⟩ := ih (infix_iff_occursAt.mpr ⟨j, hj⟩)
        exact ⟨l', List.mem_cons_of_mem l hl', hsep⟩

/-! ## Blank lines -/

omit [DecidableEq α] in
/-- A message for the framer has no blank line before its end. -/
theorem clean_of_endsOnce (hd : Delimiters sep term) {m rest : List α} {fs : List (Field α)}
    (hm : EndsOnce (term ++ term) m) (h : encode sep term fs ++ rest = m) :
    Clean term fs := by
  have hblank : term ++ term ≠ [] := List.append_ne_nil_of_left_ne_nil hd.term_ne _
  constructor
  · intro f hf
    obtain ⟨a, b, rfl⟩ := List.append_of_mem hf
    refine hm.absent_within (u := encode sep term a)
      (w := sep ++ f.2 ++ term ++ (encode sep term b ++ rest)) hblank ?_ ?_
    · rw [← h, encode_append, encode_cons]
      simp [encodeField]
    · simp [hd.sep_ne]
  · intro f hf
    cases fs with
    | nil => cases hf
    | cons g gs =>
        obtain ⟨a, b, rfl⟩ := List.append_of_mem hf
        -- what is in front of the key ends with a terminator
        obtain ⟨x, hx⟩ : term <:+ encode sep term (g :: a) := encode_suffix (by simp)
        refine hm.absent_within (u := x)
          (w := sep ++ f.2 ++ term ++ (encode sep term b ++ rest)) hblank ?_ ?_
        · rw [← h, ← List.cons_append, encode_append, ← hx, encode_cons]
          simp [encodeField]
        · simp [hd.sep_ne]

omit [DecidableEq α] in
/-- Keys that are each on one line make no blank line. -/
theorem clean_of_keys {fs : List (Field α)} (hkeys : ∀ f ∈ fs, ¬ term <:+: f.1) :
    Clean term fs where
  keys := by
    intro f hf h
    exact hkeys f hf ((List.prefix_append term term).isInfix.trans h)
  junctions := by
    intro f hf h
    obtain ⟨i, hi⟩ := infix_iff_occursAt.mp h
    -- the second of the two terminators would be in the key
    have hsecond : OccursAt term (term ++ f.1) (i + term.length) := by
      unfold OccursAt at hi ⊢
      rw [← List.drop_drop]
      have := hi.drop term.length
      rwa [List.drop_left] at this
    rw [Nat.add_comm, occursAt_append_right] at hsecond
    exact hkeys f (List.mem_of_mem_tail hf) (infix_iff_occursAt.mpr ⟨i, hsecond⟩)

omit [DecidableEq α] in
/-- A blank line does not start within a field, unless it is within its key. -/
theorem blank_behind (hd : Delimiters sep term) {k v s : List α} (hk : ¬ term ++ term <:+: k)
    (hv : ¬ term <:+: v) {i : Nat}
    (h : OccursAt (term ++ term) (k ++ sep ++ v ++ (term ++ s)) i) :
    ∃ j, i = (k ++ sep ++ v).length + j ∧ OccursAt (term ++ term) (term ++ s) j := by
  have hblank : term ++ term ≠ [] := List.append_ne_nil_of_left_ne_nil hd.term_ne _
  have hdis : List.Disjoint sep (term ++ term) := by
    intro x hs ht
    rcases List.mem_append.mp ht with ht | ht
    · exact hd.disjoint hs ht
    · exact hd.disjoint hs ht
  rw [List.append_assoc] at h
  rcases h.beside hdis hd.sep_ne hblank with hleft | hright
  · refine absurd (infix_iff_occursAt.mpr ⟨i, ?_⟩) hk
    rw [List.append_assoc] at h
    exact h.of_append hleft
  · obtain ⟨l, rfl⟩ := Nat.exists_eq_add_of_le hright
    rw [← List.length_append, occursAt_append_right] at h
    have hfirst : OccursAt term (v ++ term ++ s) l := by
      rw [List.append_assoc]
      exact (List.prefix_append term term).trans h
    have hle := hfirst.not_before hd.term_unbordered hv
    obtain ⟨j, rfl⟩ := Nat.exists_eq_add_of_le hle
    refine ⟨j, by simp only [List.length_append]; omega, ?_⟩
    exact occursAt_append_right.mp h

omit [DecidableEq α] in
/-- Behind a terminator a printed record has a blank line at its end only. -/
theorem blank_at_end (hd : Delimiters sep term) {fs : List (Field α)}
    (hkeys : ∀ f ∈ fs, ¬ term ++ term <:+: term ++ f.1) (hvals : ∀ f ∈ fs, ¬ term <:+: f.2)
    {i : Nat} (h : OccursAt (term ++ term) (term ++ (encode sep term fs ++ term)) i) :
    i + (term ++ term).length = (term ++ (encode sep term fs ++ term)).length := by
  induction fs generalizing i with
  | nil =>
      rw [encode_nil, List.nil_append] at h ⊢
      have := h.bound (List.append_ne_nil_of_left_ne_nil hd.term_ne _)
      omega
  | cons f fs ih =>
      have hcat : term ++ (encode sep term (f :: fs) ++ term)
          = term ++ f.1 ++ sep ++ f.2 ++ (term ++ (encode sep term fs ++ term)) := by
        simp [encodeField]
      rw [hcat] at h ⊢
      obtain ⟨j, rfl, hj⟩ := blank_behind hd (hkeys f List.mem_cons_self)
        (hvals f List.mem_cons_self) h
      have hend := ih (fun g hg => hkeys g (List.mem_cons_of_mem f hg))
        (fun g hg => hvals g (List.mem_cons_of_mem f hg)) hj
      simp only [List.length_append] at hend ⊢
      omega

omit [DecidableEq α] in
/-- **A printed record, closed with one more terminator, is a single message.** -/
theorem endsOnce_encode (hd : Delimiters sep term) {fs : List (Field α)} (hne : fs ≠ [])
    (hclean : Clean term fs) (hvals : ∀ f ∈ fs, ¬ term <:+: f.2) :
    EndsOnce (term ++ term) (encode sep term fs ++ term) := by
  constructor
  · obtain ⟨x, hx⟩ : term <:+ encode sep term fs := encode_suffix hne
    rw [← hx, List.append_assoc]
    exact List.suffix_append x _
  · intro i h
    cases fs with
    | nil => exact absurd rfl hne
    | cons f fs =>
        have hcat : encode sep term (f :: fs) ++ term
            = f.1 ++ sep ++ f.2 ++ (term ++ (encode sep term fs ++ term)) := by
          simp [encodeField]
        rw [hcat] at h ⊢
        obtain ⟨j, rfl, hj⟩ := blank_behind hd (hclean.keys f List.mem_cons_self)
          (hvals f List.mem_cons_self) h
        have hend : j + (term ++ term).length = (term ++ (encode sep term fs ++ term)).length :=
          blank_at_end hd hclean.junctions (fun g hg => hvals g (List.mem_cons_of_mem f hg)) hj
        simp only [List.length_append] at hend ⊢
        omega

end Record
