import Mathlib.Data.List.Basic
import Mathlib.Logic.Function.Basic

/-!
# Ledgers

Items arrive one after the other and are kept in places. `held` says what each place
holds, and a ledger says for each item, by its number, where it is, or that it was
thrown away. `Accounts` is the statement that the books balance: every item that was
not thrown away is where the ledger says, and every place that holds something holds
one item, that arrived.

Two things happen to a ledger: an item comes in at an empty place (`Accounts.enter`),
and items are moved or thrown away (`Accounts.move`).
-/

namespace Ledger

variable {α P : Type*}

structure Accounts (items : List α) (held : P → Option α) (place : Nat → Option P) : Prop where
  /-- An item is where the ledger says. -/
  kept : ∀ i x p, items[i]? = some x → place i = some p → held p = some x
  /-- What a place holds arrived, once. -/
  once : ∀ p x, held p = some x → ∃ i, items[i]? = some x ∧ place i = some p
    ∧ ∀ j, j < items.length → place j = some p → j = i

theorem Accounts.empty (place : Nat → Option P) :
    Accounts ([] : List α) (fun _ => none) place :=
  ⟨fun i x p hi _ => absurd hi (by simp), fun p x hp => absurd hp (by simp)⟩

/-- **A new item comes in at an empty place.** -/
theorem Accounts.enter [DecidableEq P] {items : List α} {held : P → Option α}
    {place : Nat → Option P} (h : Accounts items held place) {p₀ : P} (hp₀ : held p₀ = none)
    (x₀ : α) :
    Accounts (items ++ [x₀]) (Function.update held p₀ (some x₀))
      (Function.update place items.length (some p₀)) := by
  refine ⟨?_, ?_⟩
  · intro i x p hi hpl
    by_cases hlast : i = items.length
    · subst hlast
      rw [List.getElem?_concat_length] at hi
      rw [Function.update_self] at hpl
      cases hi
      cases hpl
      rw [Function.update_self]
    · rw [Function.update_of_ne hlast] at hpl
      have hi' : items[i]? = some x := by
        have hlt : i < items.length := by
          have := (List.getElem?_eq_some_iff.mp hi).1
          rw [List.length_append, List.length_singleton] at this
          omega
        rwa [List.getElem?_append_left hlt] at hi
      have hheld := h.kept i x p hi' hpl
      have hne : p ≠ p₀ := by
        intro heq
        subst heq
        rw [hp₀] at hheld
        cases hheld
      rw [Function.update_of_ne hne, hheld]
  · intro p x hp
    by_cases hnew : p = p₀
    · subst hnew
      rw [Function.update_self] at hp
      cases hp
      refine ⟨items.length, List.getElem?_concat_length, Function.update_self _ _ _,
        fun j hj hpl => ?_⟩
      by_contra hne
      -- an earlier item would have been at the empty place
      rw [Function.update_of_ne hne] at hpl
      rw [List.length_append, List.length_singleton] at hj
      have hlt : j < items.length := by omega
      have hheld := h.kept j _ p (List.getElem?_eq_getElem hlt) hpl
      rw [hp₀] at hheld
      cases hheld
    · rw [Function.update_of_ne hnew] at hp
      obtain ⟨i, hi, hpl, huniq⟩ := h.once p x hp
      have hlt := (List.getElem?_eq_some_iff.mp hi).1
      refine ⟨i, ?_, ?_, ?_⟩
      · rw [List.getElem?_append_left hlt, hi]
      · rw [Function.update_of_ne (Nat.ne_of_lt hlt), hpl]
      · intro j hj hplj
        by_cases hlast : j = items.length
        · rw [hlast, Function.update_self] at hplj
          exact absurd (Option.some.inj hplj).symm hnew
        · rw [Function.update_of_ne hlast] at hplj
          rw [List.length_append, List.length_singleton] at hj
          exact huniq j (by omega) hplj

/--
**Items are moved or thrown away.**

`σ` says where a place's item goes. It carries what the place held, and whatever is
held afterwards came from one place only.
-/
theorem Accounts.move {items : List α} {held held' : P → Option α} {place : Nat → Option P}
    (h : Accounts items held place) {σ : P → Option P}
    (hcarry : ∀ p q x, held p = some x → σ p = some q → held' q = some x)
    (hfrom : ∀ q x, held' q = some x → ∃ p, held p = some x ∧ σ p = some q
      ∧ ∀ p', held p' ≠ none → σ p' = some q → p' = p) :
    Accounts items held' fun i => (place i).bind σ := by
  refine ⟨?_, ?_⟩
  · intro i x q hi hq
    obtain ⟨p, hp, hσ⟩ := Option.bind_eq_some_iff.mp hq
    exact hcarry p q x (h.kept i x p hi hp) hσ
  · intro q x hq
    obtain ⟨p, hp, hσ, huniq⟩ := hfrom q x hq
    obtain ⟨i, hi, hpl, honce⟩ := h.once p x hp
    refine ⟨i, hi, Option.bind_eq_some_iff.mpr ⟨p, hpl, hσ⟩, ?_⟩
    intro j hj hq'
    obtain ⟨p', hp', hσ'⟩ := Option.bind_eq_some_iff.mp hq'
    have hheld := h.kept j _ p' (List.getElem?_eq_getElem hj) hp'
    have hpp : p' = p := huniq p' (by rw [hheld]; simp) hσ'
    exact honce j hj (hpp ▸ hp')

/-- Nothing moves when every place still holds what it held. -/
theorem Accounts.congr {items : List α} {held held' : P → Option α} {place : Nat → Option P}
    (h : Accounts items held place) (heq : ∀ p, held' p = held p) :
    Accounts items held' place := by
  rw [funext heq]
  exact h

end Ledger
