import Mathlib.Data.List.Infix
import Mathlib.Data.Nat.Find

/-!
# Leftmost substring search

`find p s` is the position of the leftmost occurrence of `p` in `s`. Everything
a caller needs is in `find_eq_some_iff` and `find_eq_none_iff`, which say it in
terms of `OccursAt`; nothing outside this file unfolds the recursion.

The pattern of use is incremental: a text `s` known to hold no occurrence grows
to `s ++ t`, and only the seam has to be looked at again. That is
`findFrom_append`.
-/

namespace Search

variable {α : Type*}

/-- `p` occurs in `s` at position `i`. -/
def OccursAt (p s : List α) (i : Nat) : Prop := p <+: s.drop i

instance [DecidableEq α] (p s : List α) (i : Nat) : Decidable (OccursAt p s i) :=
  inferInstanceAs (Decidable (p <+: s.drop i))

theorem OccursAt.bound {p s : List α} {i : Nat} (hp : p ≠ []) (h : OccursAt p s i) :
    i + p.length ≤ s.length := by
  have hlen := h.length_le
  rw [List.length_drop] at hlen
  have := List.length_pos_iff.mpr hp
  omega

theorem occursAt_cons_zero {p s : List α} : OccursAt p s 0 ↔ p <+: s := by
  simp [OccursAt]

@[simp] theorem occursAt_cons_succ {p s : List α} {c : α} {i : Nat} :
    OccursAt p (c :: s) (i + 1) ↔ OccursAt p s i := by
  simp [OccursAt]

theorem occursAt_drop {p s : List α} {k i : Nat} :
    OccursAt p (s.drop k) i ↔ OccursAt p s (k + i) := by
  simp [OccursAt, List.drop_drop]

/-- Occurrences survive appending on the right. -/
theorem OccursAt.append {p s : List α} {i : Nat} (hp : p ≠ []) (h : OccursAt p s i)
    (t : List α) : OccursAt p (s ++ t) i := by
  have := h.bound hp
  unfold OccursAt at *
  rw [List.drop_append_of_le_length (by omega)]
  exact h.trans (List.prefix_append _ _)

/-- An occurrence that ends inside the left part was there already. -/
theorem OccursAt.of_append {p s t : List α} {i : Nat} (h : OccursAt p (s ++ t) i)
    (hi : i + p.length ≤ s.length) : OccursAt p s i := by
  unfold OccursAt at *
  rw [List.drop_append_of_le_length (by omega)] at h
  exact List.prefix_of_prefix_length_le h (List.prefix_append _ _)
    (by rw [List.length_drop]; omega)

theorem occursAt_append_right {p s t : List α} {i : Nat} :
    OccursAt p (s ++ t) (s.length + i) ↔ OccursAt p t i := by
  simp [OccursAt, List.drop_append, List.drop_eq_nil_of_le (Nat.le_add_right s.length i)]

/-- Containing `p` is having it somewhere. -/
theorem infix_iff_occursAt {p s : List α} : p <:+: s ↔ ∃ i, OccursAt p s i := by
  constructor
  · rintro ⟨u, v, rfl⟩
    refine ⟨u.length, ?_⟩
    simp [OccursAt, List.append_assoc]
  · rintro ⟨i, h⟩
    exact h.isInfix.trans (List.drop_suffix i s).isInfix

theorem OccursAt.getElem? {p s : List α} {i j : Nat} (h : OccursAt p s i) (hj : j < p.length) :
    s[i + j]? = p[j]? := by
  obtain ⟨t, ht⟩ := h
  have hdrop : (s.drop i)[j]? = s[i + j]? := List.getElem?_drop
  rw [← hdrop, ← ht, List.getElem?_append_left hj]

theorem disjoint_of_all [DecidableEq α] {p q : List α}
    (h : (p.all fun c => !q.contains c) = true) : List.Disjoint p q := by
  intro c hp hq
  have hc := List.all_eq_true.mp h c hp
  simp [hq] at hc

/-- Where `q` has nothing in common with `p`, an occurrence of `p` is on one side of it. -/
theorem OccursAt.beside {p q u s : List α} (hdis : List.Disjoint q p) {i : Nat}
    (h : OccursAt p (u ++ q ++ s) i) (hq : q ≠ []) (hp : p ≠ []) :
    i + p.length ≤ u.length ∨ u.length + q.length ≤ i := by
  have hqlen := List.length_pos_iff.mpr hq
  have hplen := List.length_pos_iff.mpr hp
  by_contra hover
  -- the first place that both would cover
  obtain ⟨k, hik, huk, hkp, hkq⟩ : ∃ k, i ≤ k ∧ u.length ≤ k ∧ k < i + p.length
      ∧ k < u.length + q.length := by
    refine ⟨max i u.length, ?_⟩
    omega
  have hj : k - i < p.length := by omega
  have hl : k - u.length < q.length := by omega
  have hbyte := h.getElem? hj
  rw [Nat.add_sub_cancel' hik, List.append_assoc, List.getElem?_append_right huk,
    List.getElem?_append_left hl, List.getElem?_eq_getElem hl, List.getElem?_eq_getElem hj] at hbyte
  refine hdis (List.getElem_mem hl) ?_
  rw [Option.some.inj hbyte]
  exact List.getElem_mem hj

/-- Two occurrences of `p` never overlap: no end of it is a beginning. -/
def Unbordered (p : List α) : Prop := ∀ k < p.length, 0 < k → ¬ p.drop k <+: p

instance [DecidableEq α] (p : List α) : Decidable (Unbordered p) :=
  inferInstanceAs (Decidable (∀ k < p.length, 0 < k → ¬ p.drop k <+: p))

/-- In a text that goes on with `p`, nothing overlaps that occurrence from the left. -/
theorem OccursAt.not_before {p u s : List α} (hborder : Unbordered p) (hu : ¬ p <:+: u)
    {i : Nat} (h : OccursAt p (u ++ p ++ s) i) : u.length ≤ i := by
  by_contra hlt
  rcases Nat.lt_or_ge u.length (i + p.length) with hover | hin
  · -- the end of the occurrence would be a beginning of `p`
    refine hborder (u.length - i) (by omega) (by omega) ?_
    unfold OccursAt at h
    rw [List.append_assoc, List.drop_append_of_le_length (by omega)] at h
    have hdrop := h.drop (u.length - i)
    rw [List.drop_left' (by rw [List.length_drop])] at hdrop
    exact List.prefix_of_prefix_length_le hdrop (List.prefix_append p s)
      (by rw [List.length_drop]; omega)
  · refine hu (infix_iff_occursAt.mpr ⟨i, ?_⟩)
    rw [List.append_assoc] at h
    exact h.of_append hin

variable [DecidableEq α]

/-- The leftmost occurrence of `p` in `s`. -/
def find (p : List α) : List α → Option Nat
  | [] => if p = [] then some 0 else none
  | c :: s => if p <+: c :: s then some 0 else (find p s).map (· + 1)

/-- The leftmost occurrence of `p` in `s` at or after `pos`. -/
def findFrom (p s : List α) (pos : Nat) : Option Nat :=
  if pos ≤ s.length then (find p (s.drop pos)).map (· + pos) else none

theorem find_eq_some_iff {p s : List α} (hp : p ≠ []) {i : Nat} :
    find p s = some i ↔ OccursAt p s i ∧ ∀ j < i, ¬ OccursAt p s j := by
  induction s generalizing i with
  | nil =>
      rw [find, if_neg hp]
      refine ⟨fun h => absurd h (by simp), ?_⟩
      intro h
      have := h.1.bound hp
      have := List.length_pos_iff.mpr hp
      simp only [List.length_nil] at *
      omega
  | cons c s ih =>
      rw [find]
      split
      · rename_i hpre
        constructor
        · intro h
          cases h
          exact ⟨occursAt_cons_zero.mpr hpre, fun j hj => absurd hj (Nat.not_lt_zero j)⟩
        · rintro ⟨_, hfirst⟩
          rcases Nat.eq_zero_or_pos i with h0 | h0
          · rw [h0]
          · exact absurd (occursAt_cons_zero.mpr hpre) (hfirst 0 h0)
      · rename_i hpre
        cases i with
        | zero => simp [occursAt_cons_zero, hpre]
        | succ i =>
            simp only [Option.map_eq_some_iff, Nat.add_right_cancel_iff, exists_eq_right,
              occursAt_cons_succ]
            rw [ih]
            refine and_congr_right fun _ => ⟨fun h j hj => ?_, fun h j hj => ?_⟩
            · cases j with
              | zero => rwa [occursAt_cons_zero]
              | succ j => rw [occursAt_cons_succ]; exact h j (by omega)
            · have := h (j + 1) (by omega)
              rwa [occursAt_cons_succ] at this

theorem find_eq_none_iff {p s : List α} (hp : p ≠ []) :
    find p s = none ↔ ∀ i, ¬ OccursAt p s i := by
  constructor
  · intro h i hi
    -- the least occurrence would have been found
    classical
    have hex : ∃ j, OccursAt p s j := ⟨i, hi⟩
    have hfound := (find_eq_some_iff hp).mpr
      ⟨Nat.find_spec hex, fun j hj => Nat.find_min hex hj⟩
    rw [h] at hfound
    cases hfound
  · intro h
    cases hf : find p s with
    | none => rfl
    | some i => exact absurd ((find_eq_some_iff hp).mp hf).1 (h i)

theorem find_eq_none_iff_absent {p s : List α} (hp : p ≠ []) :
    find p s = none ↔ ¬ p <:+: s := by
  rw [find_eq_none_iff hp, infix_iff_occursAt, not_exists]

@[simp] theorem findFrom_zero (p s : List α) : findFrom p s 0 = find p s := by
  simp [findFrom]

theorem findFrom_eq_some {p s : List α} (hp : p ≠ []) {pos i : Nat}
    (h : findFrom p s pos = some i) :
    pos ≤ i ∧ OccursAt p s i ∧ ∀ j, pos ≤ j → j < i → ¬ OccursAt p s j := by
  unfold findFrom at h
  split at h
  · obtain ⟨k, hk, rfl⟩ := Option.map_eq_some_iff.mp h
    obtain ⟨hocc, hfirst⟩ := (find_eq_some_iff hp).mp hk
    rw [occursAt_drop] at hocc
    refine ⟨by omega, by rwa [Nat.add_comm k pos], ?_⟩
    intro j hj hlt
    have := hfirst (j - pos) (by omega)
    rwa [occursAt_drop, Nat.add_sub_cancel' hj] at this
  · cases h

theorem findFrom_eq_none_iff {p s : List α} (hp : p ≠ []) {pos : Nat} :
    findFrom p s pos = none ↔ ∀ i, pos ≤ i → ¬ OccursAt p s i := by
  unfold findFrom
  split
  · rename_i hle
    rw [Option.map_eq_none_iff, find_eq_none_iff hp]
    refine ⟨?_, ?_⟩
    · intro h i hi
      have := h (i - pos)
      rwa [occursAt_drop, Nat.add_sub_cancel' hi] at this
    · intro h i
      rw [occursAt_drop]
      exact h _ (by omega)
  · rename_i hgt
    refine ⟨?_, fun _ => rfl⟩
    intro _ i hi hocc
    have := hocc.bound hp
    omega

theorem findFrom_eq_some_of {p s : List α} (hp : p ≠ []) {pos i : Nat} (hpos : pos ≤ i)
    (hocc : OccursAt p s i) (hfirst : ∀ j, pos ≤ j → j < i → ¬ OccursAt p s j) :
    findFrom p s pos = some i := by
  cases hf : findFrom p s pos with
  | none => exact absurd hocc ((findFrom_eq_none_iff hp).mp hf i hpos)
  | some k =>
      obtain ⟨hk, hkocc, hkfirst⟩ := findFrom_eq_some hp hf
      rcases Nat.lt_trichotomy k i with hlt | heq | hgt
      · exact absurd hkocc (hfirst k hk hlt)
      · rw [heq]
      · exact absurd hocc (hkfirst i hpos hgt)

/-- A search is at or before every occurrence it could have found. -/
theorem findFrom_of_occursAt {p s : List α} (hp : p ≠ []) {pos i : Nat} (hpos : pos ≤ i)
    (hocc : OccursAt p s i) : ∃ k, findFrom p s pos = some k ∧ pos ≤ k ∧ k ≤ i := by
  cases hf : findFrom p s pos with
  | none => exact absurd hocc ((findFrom_eq_none_iff hp).mp hf i hpos)
  | some k =>
      obtain ⟨hk, _, hfirst⟩ := findFrom_eq_some hp hf
      refine ⟨k, rfl, hk, ?_⟩
      rcases Nat.lt_or_ge i k with hlt | hge
      · exact absurd hocc (hfirst i hpos hlt)
      · exact hge

/-- What is in front of the first `p`, and what is behind it. -/
theorem find_split {p s : List α} (hp : p ≠ []) {i : Nat} (h : find p s = some i) :
    ∃ u v, u ++ p ++ v = s ∧ u.length = i ∧ ¬ p <:+: u := by
  obtain ⟨hocc, hfirst⟩ := (find_eq_some_iff hp).mp h
  have hbound := hocc.bound hp
  have hlen : (s.take i).length = i := by
    rw [List.length_take]
    omega
  obtain ⟨v, hv⟩ := hocc
  refine ⟨s.take i, v, ?_, hlen, ?_⟩
  · rw [List.append_assoc, hv, List.take_append_drop]
  · intro hin
    obtain ⟨j, hj⟩ := infix_iff_occursAt.mp hin
    have hjb := hj.bound hp
    have hjs := hj.append hp (s.drop i)
    rw [List.take_append_drop] at hjs
    have := List.length_pos_iff.mpr hp
    exact hfirst j (by omega) hjs

/-- The first `p` behind a text without one. -/
theorem find_append_self {p u s : List α} (hp : p ≠ []) (hborder : Unbordered p)
    (hu : ¬ p <:+: u) : find p (u ++ p ++ s) = some u.length := by
  refine (find_eq_some_iff hp).mpr ⟨?_, ?_⟩
  · rw [List.append_assoc]
    simp [OccursAt]
  · intro j hj hocc
    have := hocc.not_before hborder hu
    omega

/-- A search that starts where a text was put in front is a search of what comes behind. -/
theorem findFrom_append_left (p u s : List α) :
    findFrom p (u ++ s) u.length = (find p s).map (· + u.length) := by
  unfold findFrom
  rw [if_pos (by rw [List.length_append]; omega), List.drop_left]

/--
**Only the seam has to be searched again.**

A text without an occurrence is extended; a search that starts at most
`p.length - 1` short of the seam sees every occurrence the new text has.
-/
theorem findFrom_append {p s t : List α} {pos : Nat} (hp : p ≠ []) (hs : ¬ p <:+: s)
    (hpos : pos + p.length ≤ s.length + 1 ∨ pos = 0) :
    findFrom p (s ++ t) pos = find p (s ++ t) := by
  -- nothing occurs before the start of the search
  have hskip : ∀ j, j < pos → ¬ OccursAt p (s ++ t) j := by
    intro j hj hocc
    have hle : j + p.length ≤ s.length := by omega
    exact hs (infix_iff_occursAt.mpr ⟨j, hocc.of_append hle⟩)
  rw [← findFrom_zero]
  cases hf : findFrom p (s ++ t) 0 with
  | none =>
      rw [findFrom_eq_none_iff hp] at hf ⊢
      exact fun i _ => hf i (Nat.zero_le i)
  | some i =>
      obtain ⟨_, hocc, hfirst⟩ := findFrom_eq_some hp hf
      have hle : pos ≤ i := by
        rcases Nat.lt_or_ge i pos with hlt | hge
        · exact absurd hocc (hskip i hlt)
        · exact hge
      exact findFrom_eq_some_of hp hle hocc fun j _ hj => hfirst j (Nat.zero_le j) hj

end Search
