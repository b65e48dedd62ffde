import CppAmi.Lib.Search

/-!
# Terminator framing

A byte stream is cut into messages by a terminator `t`: each message runs up to
and including the next occurrence of `t`, and what follows the last one is left
over. `Framed t s ms rest` says `ms` and `rest` are that cut of `s`.

The cut is unique (`Framed.unique`), so it is a fact about the stream and not
about who did the cutting or in what order the bytes arrived. It composes along
concatenation (`Framed.append`), which is what an incremental framer relies on.
-/

namespace Framing

open Search

variable {α : Type*}

/-- `m` ends with `t`, and `t` occurs nowhere else in it, overlaps included. -/
structure EndsOnce (t m : List α) : Prop where
  suffix : t <:+ m
  once : ∀ i, OccursAt t m i → i + t.length = m.length

/-- `ms` and `rest` are the cut of the stream `s` at the terminator `t`. -/
structure Framed (t s : List α) (ms : List (List α)) (rest : List α) : Prop where
  /-- Nothing is lost, added or moved. -/
  concat : ms.flatten ++ rest = s
  /-- Every message ends at its first terminator. -/
  each : ∀ m ∈ ms, EndsOnce t m
  /-- No message is still waiting in the leftover. -/
  tail : ¬ t <:+: rest

theorem EndsOnce.occurs {t m : List α} (h : EndsOnce t m) :
    OccursAt t m (m.length - t.length) := by
  obtain ⟨u, rfl⟩ := h.suffix
  simp [OccursAt]

theorem EndsOnce.ne_nil {t m : List α} (ht : t ≠ []) (h : EndsOnce t m) : m ≠ [] := by
  obtain ⟨u, rfl⟩ := h.suffix
  exact List.append_ne_nil_of_right_ne_nil u ht

theorem EndsOnce.le_length {t m : List α} (h : EndsOnce t m) : t.length ≤ m.length :=
  h.suffix.length_le

/-- In a stream that starts with a message, no terminator is seen before the message's own. -/
theorem EndsOnce.first {t m u : List α} (h : EndsOnce t m) {i : Nat}
    (hi : OccursAt t (m ++ u) i) : m.length ≤ i + t.length := by
  rcases Nat.lt_or_ge (i + t.length) m.length with hlt | hge
  · have := h.once i (hi.of_append (Nat.le_of_lt hlt))
    omega
  · exact hge

/-- Before its end a message has no terminator. -/
theorem EndsOnce.absent_within {t m u v w : List α} (ht : t ≠ []) (h : EndsOnce t m)
    (heq : u ++ v ++ w = m) (hw : w ≠ []) : ¬ t <:+: v := by
  intro hv
  obtain ⟨i, hi⟩ := infix_iff_occursAt.mp hv
  have hbound := hi.bound ht
  have hm : OccursAt t m (u.length + i) := by
    rw [← heq, List.append_assoc, occursAt_append_right]
    exact hi.append ht w
  have hend := h.once _ hm
  have hlen := congrArg List.length heq
  have hpos := List.length_pos_iff.mpr hw
  simp only [List.length_append] at hlen
  omega

/-- Two messages that start the same stream are the same message. -/
theorem EndsOnce.unique {t m m' u u' : List α} (ht : t ≠ []) (h : EndsOnce t m)
    (h' : EndsOnce t m') (heq : m ++ u = m' ++ u') : m = m' ∧ u = u' := by
  have hle := h.first (heq ▸ h'.occurs.append ht u')
  have hle' := h'.first (heq ▸ h.occurs.append ht u)
  have := h.le_length
  have := h'.le_length
  exact List.append_inj heq (by omega)

theorem Framed.nil {t s : List α} (h : ¬ t <:+: s) : Framed t s [] s :=
  ⟨by simp, by simp, h⟩

theorem Framed.cons {t m s rest : List α} {ms : List (List α)} (hm : EndsOnce t m)
    (h : Framed t s ms rest) : Framed t (m ++ s) (m :: ms) rest := by
  refine ⟨?_, ?_, h.tail⟩
  · rw [List.flatten_cons, List.append_assoc, h.concat]
  · intro x hx
    rcases List.mem_cons.mp hx with rfl | hx
    · exact hm
    · exact h.each x hx

/-- A message is the cut of itself. -/
theorem Framed.single {t m : List α} (ht : t ≠ []) (hm : EndsOnce t m) : Framed t m [m] [] := by
  have hnil : ¬ t <:+: ([] : List α) := fun h => ht (List.infix_nil.mp h)
  have h := Framed.cons hm (Framed.nil hnil)
  rwa [List.append_nil] at h

/-- A stream that starts with a terminated message is not a leftover. -/
theorem EndsOnce.infix_append {t m : List α} (h : EndsOnce t m) (u : List α) : t <:+: m ++ u :=
  h.suffix.isInfix.trans (List.prefix_append m u).isInfix

/-- **The cut is unique.** -/
theorem Framed.unique {t s rest rest' : List α} {ms ms' : List (List α)} (ht : t ≠ [])
    (h : Framed t s ms rest) (h' : Framed t s ms' rest') : ms = ms' ∧ rest = rest' := by
  have hcat : ms.flatten ++ rest = ms'.flatten ++ rest' := h.concat.trans h'.concat.symm
  have each := h.each
  have each' := h'.each
  have tail := h.tail
  have tail' := h'.tail
  clear h h'
  induction ms generalizing ms' with
  | nil =>
      cases ms' with
      | nil => exact ⟨rfl, by simpa using hcat⟩
      | cons m' ms' =>
          rw [List.flatten_nil, List.nil_append, List.flatten_cons, List.append_assoc] at hcat
          exact absurd ((each' m' List.mem_cons_self).infix_append _) (hcat ▸ tail)
  | cons m ms ih =>
      cases ms' with
      | nil =>
          rw [List.flatten_nil, List.nil_append, List.flatten_cons, List.append_assoc] at hcat
          exact absurd ((each m List.mem_cons_self).infix_append _) (hcat ▸ tail')
      | cons m' ms' =>
          simp only [List.flatten_cons, List.append_assoc] at hcat
          obtain ⟨hm, hrest⟩ :=
            (each m List.mem_cons_self).unique ht (each' m' List.mem_cons_self) hcat
          obtain ⟨hms, hr⟩ := ih hrest (fun x hx => each x (List.mem_cons_of_mem m hx))
            (fun x hx => each' x (List.mem_cons_of_mem m' hx))
          exact ⟨by rw [hm, hms], hr⟩

/-- **Cuts compose along concatenation:** the leftover of the first is the start of the second. -/
theorem Framed.append {t s u r rest : List α} {ms ms' : List (List α)}
    (h : Framed t s ms r) (h' : Framed t (r ++ u) ms' rest) :
    Framed t (s ++ u) (ms ++ ms') rest := by
  refine ⟨?_, ?_, h'.tail⟩
  · rw [List.flatten_append, List.append_assoc, h'.concat, ← List.append_assoc, h.concat]
  · intro m hm
    rcases List.mem_append.mp hm with hm | hm
    · exact h.each m hm
    · exact h'.each m hm

variable [DecidableEq α]

/-- Cutting right after the leftmost terminator gives a message. -/
theorem endsOnce_take {t s : List α} {i : Nat} (ht : t ≠ []) (h : find t s = some i) :
    EndsOnce t (s.take (i + t.length)) := by
  obtain ⟨hocc, hfirst⟩ := (find_eq_some_iff ht).mp h
  have hlen := hocc.bound ht
  have hsplit : s.take (i + t.length) = s.take i ++ t := by
    rw [List.take_add, List.prefix_iff_eq_take.mp hocc]
    simp
  refine ⟨⟨s.take i, hsplit.symm⟩, ?_⟩
  intro j hj
  have hjb := hj.bound ht
  rw [List.length_take, Nat.min_eq_left hlen] at hjb ⊢
  -- an occurrence inside the message is one of the stream, so not before `i`
  have hjs : OccursAt t s j := by
    have := hj.append ht (s.drop (i + t.length))
    rwa [List.take_append_drop] at this
  rcases Nat.lt_or_ge j i with hlt | hge
  · exact absurd hjs (hfirst j hlt)
  · omega

/-- Any text is pieces without `t`, each with a `t` behind it but the last. -/
theorem exists_pieces {t : List α} (ht : t ≠ []) (s : List α) :
    ∃ (ls : List (List α)) (rest : List α), ls.flatMap (· ++ t) ++ rest = s
      ∧ (∀ l ∈ ls, ¬ t <:+: l) ∧ ¬ t <:+: rest := by
  induction hn : s.length using Nat.strong_induction_on generalizing s with
  | _ n ih =>
      cases hf : find t s with
      | none => exact ⟨[], s, rfl, by simp, (find_eq_none_iff_absent ht).mp hf⟩
      | some i =>
          obtain ⟨l, s', rfl, _, hl⟩ := find_split ht hf
          have hpos := List.length_pos_iff.mpr ht
          obtain ⟨ls, rest, hcat, hls, hrest⟩ := ih s'.length (by
            rw [← hn]
            simp only [List.length_append]
            omega) s' rfl
          refine ⟨l :: ls, rest, ?_, ?_, hrest⟩
          · rw [List.flatMap_cons, List.append_assoc, hcat]
          · intro x hx
            rcases List.mem_cons.mp hx with rfl | hx
            · exact hl
            · exact hls x hx

end Framing
