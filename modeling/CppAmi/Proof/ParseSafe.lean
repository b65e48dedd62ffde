import CppAmi.Model.KeyValDict
import CppAmi.Proof.Banner

/-!
# Parsing what the framer dispatches is safe

`set_message` takes it for granted that a separator is followed by an `EOR`. It is,
in a message that ends with `EOM`: a separator has no byte in common with the
terminator, so it ends before the terminator begins.
-/

namespace CppAmi.Proof

open CppAmi KeyValDict StreamParser Framing

/-- A separator in a terminated message ends before the terminator. -/
theorem sep_before_eom {u : Bytes} {i : Nat} (h : Search.OccursAt SEP (u ++ EOM) i) :
    i + 2 ≤ u.length := by
  have hdis : List.Disjoint EOM SEP := Search.disjoint_of_all (by decide)
  have hbound := h.bound SEP_ne_nil
  rw [← List.append_nil (u ++ EOM)] at h
  rcases h.beside hdis EOM_ne_nil SEP_ne_nil with hbefore | hbehind
  · exact hbefore
  · rw [List.length_append, length_SEP] at hbound
    omega

/--
What one iteration of `set_message` finds in a terminated message: the value ends at an `EOR`,
and everything between `key_beg` and that `EOR` is inside the buffer.
-/
theorem field_bounds {m : Bytes} (hm : EOM <:+ m) {keyBeg keyEnd : Nat}
    (h : find m SEP keyBeg = some keyEnd) :
    keyBeg ≤ keyEnd ∧ ∃ valEnd, find m EOR (keyEnd + 2) = some valEnd
      ∧ keyEnd + 2 ≤ valEnd ∧ valEnd + 2 < m.length := by
  obtain ⟨u, rfl⟩ := hm
  obtain ⟨hle, hocc, _⟩ := Search.findFrom_eq_some SEP_ne_nil h
  have hsep := sep_before_eom hocc
  have heor : Search.OccursAt EOR (u ++ EOM) u.length := by
    have := Search.occursAt_append_right (p := EOR) (s := u) (t := EOM) (i := 0)
    exact this.mpr (by decide)
  obtain ⟨valEnd, hfind, hge, hend⟩ := Search.findFrom_of_occursAt EOR_ne_nil hsep heor
  refine ⟨hle, valEnd, hfind, hge, ?_⟩
  rw [List.length_append, length_EOM]
  omega

/-- One iteration, where the separator and the end of the value are where the search found them. -/
theorem parseField_eq {m : Bytes} {keyBeg keyEnd valEnd : Nat} (d : KeyValDict)
    (hf : find m SEP keyBeg = some keyEnd) (hv : find m EOR (keyEnd + 2) = some valEnd)
    (hle : keyBeg ≤ keyEnd) (hge : keyEnd + 2 ≤ valEnd) (hend : valEnd ≤ m.length) :
    parseField m keyBeg d = .ok (some (valEnd + 2,
      ⟨d.orderedKeys ++ [(m.drop keyBeg).take (keyEnd - keyBeg)],
        d.values.emplace ((m.drop keyBeg).take (keyEnd - keyBeg))
          ((m.drop (keyEnd + 2)).take (valEnd - (keyEnd + 2)))⟩)) := by
  have hin : keyBeg < m.length := by omega
  have hkey : keyBeg + (keyEnd - keyBeg) ≤ m.length := by omega
  have hval : keyEnd + 2 + (valEnd - (keyEnd + 2)) ≤ m.length := by omega
  simp only [parseField, if_pos hin, hf, hv, distance, advance_some, view, if_pos hkey,
    if_pos hval, bind, Except.bind]

/-- One iteration on a terminated message ends the loop or moves `key_beg` forward. -/
theorem parseField_ok {m : Bytes} (hm : EOM <:+ m) (keyBeg : Nat) (d : KeyValDict) :
    parseField m keyBeg d = .ok none
      ∨ ∃ keyBeg' d', parseField m keyBeg d = .ok (some (keyBeg', d'))
          ∧ keyBeg < keyBeg' ∧ keyBeg' < m.length := by
  by_cases hin : keyBeg < m.length
  · cases hf : find m SEP keyBeg with
    | none => exact Or.inl (by simp [parseField, hin, hf])
    | some keyEnd =>
        obtain ⟨hle, valEnd, hv, hge, hend⟩ := field_bounds hm hf
        exact Or.inr ⟨_, _, parseField_eq d hf hv hle hge (by omega), by omega, hend⟩
  · exact Or.inl (by simp [parseField, hin])

theorem parseFields_ok {m : Bytes} (hm : EOM <:+ m) :
    ∀ (fuel keyBeg : Nat) (d : KeyValDict), m.length < fuel + keyBeg → keyBeg ≤ m.length →
      ∃ d', parseFields m fuel keyBeg d = .ok d'
  | 0, keyBeg, _, hfuel, hle => by omega
  | fuel + 1, keyBeg, d, hfuel, hle => by
      rcases parseField_ok hm keyBeg d with hdone | ⟨keyBeg', d', hnext, hlt, hin⟩
      · exact ⟨d, by rw [parseFields, hdone]⟩
      · obtain ⟨d'', h⟩ := parseFields_ok hm fuel keyBeg' d' (by omega) (by omega)
        exact ⟨d'', by rw [parseFields, hnext]; exact h⟩

/-- `set_message` returns on every message the framer can dispatch. -/
theorem ofMessage_ok {m : Bytes} (hm : EOM <:+ m) : ∃ d, ofMessage m = .ok d := by
  have hne : m ≠ [] := by
    intro heq
    subst heq
    exact absurd hm (by decide)
  obtain ⟨d, h⟩ := parseFields_ok hm (m.length + 1) 0 ⟨[], ∅⟩ (by omega) (Nat.zero_le _)
  exact ⟨d, by rw [ofMessage, setMessage, if_neg hne, h]⟩

/-- Every run of a fresh parser ends, and what it dispatches ends with its only `EOM`. -/
theorem processChunks_dispatched (chunks : List Bytes) :
    ∃ p, processChunks {} chunks = .ok p ∧ ∀ m ∈ p.dispatched, EndsOnce EOM m := by
  cases chunks with
  | nil => exact ⟨{}, rfl, fun m hm => absurd hm List.not_mem_nil⟩
  | cons chunk chunks =>
      obtain ⟨version, ms, rest, hrun, _, hframed⟩ := processChunks_fresh chunk chunks
      exact ⟨_, hrun, hframed.each⟩

/--
**No bytes from the network make the parsing threads throw, run out of bounds or loop.**

Whatever the chunks, the parser returns, and every message it dispatches is non-empty
and parsed by `set_message`: wherever its loop stands, a separator it finds is followed
by an `EOR`, both views lie inside the buffer, and the next iteration starts further on.
-/
theorem network_bytes_safe (chunks : List Bytes) :
    ∃ p, processChunks {} chunks = .ok p
      ∧ ∀ m ∈ p.dispatched, m ≠ [] ∧ (∃ d, ofMessage m = .ok d)
        ∧ ∀ keyBeg keyEnd d, find m SEP keyBeg = some keyEnd →
            ∃ valEnd d', find m EOR (keyEnd + 2) = some valEnd
              ∧ keyBeg ≤ keyEnd ∧ keyEnd + 2 ≤ valEnd ∧ valEnd ≤ m.length
              ∧ parseField m keyBeg d = .ok (some (valEnd + 2, d')) ∧ keyBeg < valEnd + 2 := by
  obtain ⟨p, hrun, hends⟩ := processChunks_dispatched chunks
  refine ⟨p, hrun, fun m hm => ⟨(hends m hm).ne_nil EOM_ne_nil, ofMessage_ok (hends m hm).suffix,
    ?_⟩⟩
  intro keyBeg keyEnd d hf
  obtain ⟨hle, valEnd, hv, hge, hend⟩ := field_bounds (hends m hm).suffix hf
  have hin : valEnd ≤ m.length := by omega
  exact ⟨valEnd, _, hv, hle, hge, hin, parseField_eq d hf hv hle hge hin, by omega⟩

end CppAmi.Proof
