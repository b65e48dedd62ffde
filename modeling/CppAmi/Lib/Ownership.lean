import Mathlib.Data.Finset.Basic
import Mathlib.Logic.Function.Basic

/-!
# Owners of resources

Resources are opened and closed, and each owner holds at most one. `Owned` says that the
two agree: what is held is open and held by one owner only, and what is open is held. Then
an owner who closes what it holds takes nothing from another, and when nobody holds
anything nothing is open.

An owner opens a resource (`Owned.opens`), closes it (`Owned.closes`), or goes on with what
it holds: that is all a `Turn` of it does (`Owned.turn`).
-/

namespace Ownership

variable {ρ κ : Type*}

structure Owned (opened : Finset ρ) (holds : κ → Option ρ) : Prop where
  held : ∀ o r, holds o = some r → r ∈ opened
  /-- Nothing is held twice. -/
  alone : ∀ o o' r, holds o = some r → holds o' = some r → o = o'
  /-- Nothing has been lost. -/
  kept : ∀ r ∈ opened, ∃ o, holds o = some r

theorem Owned.empty : Owned (∅ : Finset ρ) (fun _ : κ => none) where
  held := by
    intro o r h
    cases h
  alone := by
    intro o o' r h _
    cases h
  kept := by simp

variable [DecidableEq ρ] [DecidableEq κ] {opened : Finset ρ} {holds : κ → Option ρ}

/-- **An owner opens a resource** that is not open, and held nothing before. -/
theorem Owned.opens (h : Owned opened holds) {o : κ} {r : ρ} (ho : holds o = none)
    (hr : r ∉ opened) : Owned (insert r opened) (Function.update holds o (some r)) := by
  have hother : ∀ o', o' ≠ o → ∀ r', holds o' = some r' → r' ≠ r := by
    rintro o' _ r' hheld rfl
    exact hr (h.held o' _ hheld)
  refine ⟨?_, ?_, ?_⟩
  · intro o' r' hheld
    by_cases hoo : o' = o
    · subst hoo
      rw [Function.update_self] at hheld
      cases hheld
      exact Finset.mem_insert_self _ _
    · rw [Function.update_of_ne hoo] at hheld
      exact Finset.mem_insert_of_mem (h.held o' r' hheld)
  · intro o₁ o₂ r' h₁ h₂
    by_cases ho₁ : o₁ = o
    · by_cases ho₂ : o₂ = o
      · rw [ho₁, ho₂]
      · subst ho₁
        rw [Function.update_self] at h₁
        rw [Function.update_of_ne ho₂] at h₂
        cases h₁
        exact absurd rfl (hother o₂ ho₂ _ h₂)
    · rw [Function.update_of_ne ho₁] at h₁
      by_cases ho₂ : o₂ = o
      · subst ho₂
        rw [Function.update_self] at h₂
        cases h₂
        exact absurd rfl (hother o₁ ho₁ _ h₁)
      · rw [Function.update_of_ne ho₂] at h₂
        exact h.alone o₁ o₂ r' h₁ h₂
  · intro r' hr'
    rcases Finset.mem_insert.mp hr' with rfl | hold
    · exact ⟨o, Function.update_self _ _ _⟩
    · obtain ⟨o', ho'⟩ := h.kept r' hold
      refine ⟨o', ?_⟩
      rw [Function.update_of_ne, ho']
      rintro rfl
      rw [ho] at ho'
      cases ho'

/-- **An owner closes what it holds**, and takes nothing from another. -/
theorem Owned.closes (h : Owned opened holds) {o : κ} {r : ρ} (ho : holds o = some r) :
    Owned (opened.erase r) (Function.update holds o none) := by
  refine ⟨?_, ?_, ?_⟩
  · intro o' r' hheld
    have hoo : o' ≠ o := by
      rintro rfl
      rw [Function.update_self] at hheld
      cases hheld
    rw [Function.update_of_ne hoo] at hheld
    refine Finset.mem_erase.mpr ⟨?_, h.held o' r' hheld⟩
    rintro rfl
    exact hoo (h.alone o' o _ hheld ho)
  · intro o₁ o₂ r' h₁ h₂
    have hne : ∀ o', Function.update holds o none o' = some r' → holds o' = some r' := by
      intro o' hheld
      by_cases hoo : o' = o
      · subst hoo
        rw [Function.update_self] at hheld
        cases hheld
      · rwa [Function.update_of_ne hoo] at hheld
    exact h.alone o₁ o₂ r' (hne o₁ h₁) (hne o₂ h₂)
  · intro r' hr'
    obtain ⟨hne, hold⟩ := Finset.mem_erase.mp hr'
    obtain ⟨o', ho'⟩ := h.kept r' hold
    refine ⟨o', ?_⟩
    rw [Function.update_of_ne, ho']
    rintro rfl
    rw [ho] at ho'
    exact hne (Option.some.inj ho').symm

/-- What one owner does to what is open and to what it holds. -/
inductive Turn (opened : Finset ρ) : Option ρ → Finset ρ → Option ρ → Prop where
  | same {mine : Option ρ} : Turn opened mine opened mine
  | opens {r : ρ} (hr : r ∉ opened) : Turn opened none (insert r opened) (some r)
  | closes {r : ρ} : Turn opened (some r) (opened.erase r) none

/-- **A turn of one owner leaves the books in order.** -/
theorem Owned.turn (h : Owned opened holds) {o : κ} {opened' : Finset ρ} {mine mine' : Option ρ}
    (ho : holds o = mine) (ht : Turn opened mine opened' mine') :
    Owned opened' (Function.update holds o mine') := by
  cases ht with
  | same =>
      rw [← ho, Function.update_eq_self]
      exact h
  | opens hr => exact h.opens ho hr
  | closes => exact h.closes ho

end Ownership
