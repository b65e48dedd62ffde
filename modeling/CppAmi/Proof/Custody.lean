import CppAmi.Model.ScopeGuard
import Mathlib.Data.List.Nodup

/-!
# Who owns a callback

Moving a guard moves its callback, so no callback ever has two owners, and none that
is owned has run (`Custody`, kept by every operation: `custody_step`). No guard holds
an empty function, so no destructor throws, and a run goes on as long as the guards it
names are there (`run_ok`).
-/

namespace CppAmi.Proof

open CppAmi Guards

/-! ## What an operation does to the owners -/

theorem owns_put (s : Guards) (i j n : Nat) (g : Option ScopeGuard) :
    (s.put i g).Owns j n ↔ (j = i ∧ g = some { callback := .given n }) ∨ (j ≠ i ∧ s.Owns j n) := by
  unfold Owns put
  by_cases h : j = i
  · subst h
    simp
  · simp [h]

theorem moveAssign_cases {s s' : Guards} {left right : Nat}
    (h : s.moveAssign left right = .ok s') :
    ∃ l r, s.guard left = some l ∧ s.guard right = some r
      ∧ s' = (s.put right (some { callback := .noop })).put left
        (some { callback := r.callback }) := by
  unfold Guards.moveAssign at h
  split at h
  · rename_i l r hl hr
    cases h
    exact ⟨l, r, hl, hr, rfl⟩
  · cases h

/-- **The callback goes from the right to the left.** -/
theorem owns_moveAssign {s s' : Guards} {left right : Nat} (h : s.moveAssign left right = .ok s')
    (j n : Nat) :
    s'.Owns j n ↔ (j = left ∧ s.Owns right n) ∨ (j ≠ left ∧ j ≠ right ∧ s.Owns j n) := by
  obtain ⟨l, r, _, hr, rfl⟩ := moveAssign_cases h
  rw [owns_put, owns_put]
  have hright : some ({ callback := r.callback } : ScopeGuard) = some { callback := .given n }
      ↔ s.Owns right n := by
    unfold Owns
    rw [hr]
  rw [hright]
  simp

/-! ## Custody -/

/-- What holds of the guards whatever is done with them. -/
structure Custody (s : Guards) : Prop where
  /-- A guard that was not constructed is not there. -/
  fresh : ∀ i, s.constructed ≤ i → s.guard i = none
  /-- No callback has two owners. -/
  sole : ∀ i j n, s.Owns i n → s.Owns j n → i = j
  /-- What is owned was given. -/
  owned : ∀ i n, s.Owns i n → n < s.given
  /-- What is owned has not run. -/
  notYet : s.NotYet
  /-- What has run was given, and ran once. -/
  once : s.invoked.Nodup
  ran : ∀ n ∈ s.invoked, n < s.given

theorem custody_init : Custody {} where
  fresh := by
    intro i _
    rfl
  sole := by
    intro i j n hi _
    cases hi
  owned := by
    intro i n hi
    cases hi
  notYet := by
    intro i n hi
    cases hi
  once := List.nodup_nil
  ran := by
    intro n hn
    cases hn

/-- Callbacks that change hands, one to one, stay in custody. -/
theorem Custody.passed_on {s s' : Guards} (h : Custody s) (hgiven : s'.given = s.given)
    (hinvoked : s'.invoked = s.invoked) (hfresh : ∀ i, s'.constructed ≤ i → s'.guard i = none)
    (hsole : ∀ i j n, s'.Owns i n → s'.Owns j n → i = j)
    (hback : ∀ j n, s'.Owns j n → ∃ i, s.Owns i n) : Custody s' where
  fresh := hfresh
  sole := hsole
  owned := by
    intro j n hj
    obtain ⟨i, hi⟩ := hback j n hj
    rw [hgiven]
    exact h.owned i n hi
  notYet := by
    intro j n hj
    obtain ⟨i, hi⟩ := hback j n hj
    rw [hinvoked]
    exact h.notYet i n hi
  once := by
    rw [hinvoked]
    exact h.once
  ran := by
    rw [hinvoked, hgiven]
    exact h.ran

/-- A guard that does not exist owns nothing. -/
theorem Custody.not_owns {s : Guards} (h : Custody s) (n : Nat) : ¬ s.Owns s.constructed n := by
  intro hown
  have hnone := h.fresh s.constructed (Nat.le_refl _)
  unfold Owns at hown
  rw [hnone] at hown
  cases hown

theorem owns_construct {s : Guards} (h : Custody s) (j n : Nat) (g : ScopeGuard) :
    (s.construct g).Owns j n ↔ (j = s.constructed ∧ g = { callback := .given n }) ∨ s.Owns j n := by
  have hput : (s.construct g).Owns j n ↔ (s.put s.constructed (some g)).Owns j n := Iff.rfl
  rw [hput, owns_put]
  constructor
  · intro hown
    rcases hown with ⟨hj, hg⟩ | ⟨_, hold⟩
    · exact Or.inl ⟨hj, Option.some.inj hg⟩
    · exact Or.inr hold
  · intro hown
    rcases hown with ⟨hj, hg⟩ | hold
    · exact Or.inl ⟨hj, congrArg some hg⟩
    · refine Or.inr ⟨?_, hold⟩
      intro hj
      rw [hj] at hold
      exact h.not_owns n hold

theorem construct_fresh {s : Guards} (h : Custody s) (g : ScopeGuard) (i : Nat)
    (hi : s.constructed + 1 ≤ i) : (s.construct g).guard i = none := by
  have hne : i ≠ s.constructed := by omega
  unfold construct put
  simp only [Function.update_of_ne hne]
  exact h.fresh i (by omega)

/-- The guard of a move construction is there, and empty, before the move. -/
theorem custody_constructEmpty {s : Guards} (h : Custody s) : Custody (s.construct {}) := by
  have hsame : ∀ j n, (s.construct {}).Owns j n ↔ s.Owns j n := by
    intro j n
    rw [owns_construct h]
    simp
  refine h.passed_on rfl rfl (construct_fresh h {}) ?_ fun j n hj => ⟨j, (hsame j n).mp hj⟩
  intro i j n hi hj
  exact h.sole i j n ((hsame i n).mp hi) ((hsame j n).mp hj)

theorem custody_construct {s : Guards} (h : Custody s) :
    Custody { s.construct { callback := .given s.given } with given := s.given + 1 } := by
  have hown : ∀ j n, (s.construct { callback := .given s.given }).Owns j n →
      (j = s.constructed ∧ n = s.given) ∨ s.Owns j n := by
    intro j n hj
    rcases (owns_construct h j n _).mp hj with ⟨hc, hg⟩ | hold
    · injection hg with hg
      injection hg with hg
      exact Or.inl ⟨hc, hg.symm⟩
    · exact Or.inr hold
  constructor
  · exact construct_fresh h _
  · intro i j n hi hj
    rcases hown i n hi with ⟨hci, hni⟩ | hi
    · rcases hown j n hj with ⟨hcj, _⟩ | hj
      · rw [hci, hcj]
      · have := h.owned j n hj
        omega
    · rcases hown j n hj with ⟨_, hnj⟩ | hj
      · have := h.owned i n hi
        omega
      · exact h.sole i j n hi hj
  · intro i n hi
    show n < s.given + 1
    rcases hown i n hi with ⟨_, hn⟩ | hi
    · omega
    · have := h.owned i n hi
      omega
  · intro i n hi hran
    have hlt := h.ran n hran
    rcases hown i n hi with ⟨_, hn⟩ | hi
    · omega
    · exact h.notYet i n hi hran
  · exact h.once
  · intro n hn
    have := h.ran n hn
    show n < s.given + 1
    omega

theorem custody_moveAssign {s s' : Guards} (h : Custody s) {left right : Nat}
    (hmove : s.moveAssign left right = .ok s') : Custody s' := by
  have hown := owns_moveAssign hmove
  obtain ⟨l, r, hl, hr, hs'⟩ := moveAssign_cases hmove
  have hsame : s'.constructed = s.constructed ∧ s'.given = s.given ∧ s'.invoked = s.invoked := by
    rw [hs']
    exact ⟨rfl, rfl, rfl⟩
  obtain ⟨hcons, hgiven, hinvoked⟩ := hsame
  refine h.passed_on hgiven hinvoked ?_ ?_ ?_
  · intro i hi
    rw [hcons] at hi
    have hnone := h.fresh i hi
    have hleft : i ≠ left := by
      intro heq
      rw [heq, hl] at hnone
      cases hnone
    have hright : i ≠ right := by
      intro heq
      rw [heq, hr] at hnone
      cases hnone
    rw [hs']
    unfold put
    simp only [Function.update_of_ne hleft, Function.update_of_ne hright]
    exact hnone
  · intro i j n hi hj
    rcases (hown i n).mp hi with ⟨hil, hi⟩ | ⟨_, hir, hi⟩
    · rcases (hown j n).mp hj with ⟨hjl, _⟩ | ⟨_, hjr, hj⟩
      · rw [hil, hjl]
      · exact absurd (h.sole j right n hj hi) hjr
    · rcases (hown j n).mp hj with ⟨_, hj⟩ | ⟨_, _, hj⟩
      · exact absurd (h.sole i right n hi hj) hir
      · exact h.sole i j n hi hj
  · intro j n hj
    rcases (hown j n).mp hj with ⟨_, hold⟩ | ⟨_, _, hold⟩
    · exact ⟨right, hold⟩
    · exact ⟨j, hold⟩

/-- A destructor runs what its guard owns. -/
theorem destroy_cases {s s' : Guards} {i : Nat} (h : s.destroy i = .ok s') :
    ((∀ n, ¬ s.Owns i n) ∧ s' = s.put i none)
      ∨ ∃ n, s.Owns i n ∧ s' = { s.put i none with invoked := s.invoked ++ [n] } := by
  unfold Guards.destroy at h
  split at h
  · cases h
  · rename_i g hg
    split at h
    · cases h
    · rename_i hcb
      cases h
      refine Or.inl ⟨?_, rfl⟩
      intro n hown
      unfold Owns at hown
      rw [hg] at hown
      cases hown
      cases hcb
    · rename_i n hcb
      cases h
      refine Or.inr ⟨n, ?_, rfl⟩
      unfold Owns
      rw [hg, ← hcb]

theorem custody_destroy {s s' : Guards} (h : Custody s) {i : Nat} (hstep : s.destroy i = .ok s') :
    Custody s' := by
  have hown : ∀ j n, (s.put i none).Owns j n → j ≠ i ∧ s.Owns j n := by
    intro j n hj
    rcases (owns_put s i j n none).mp hj with ⟨_, hg⟩ | hold
    · cases hg
    · exact hold
  have hfresh : ∀ j, s.constructed ≤ j → (s.put i none).guard j = none := by
    intro j hj
    by_cases hji : j = i
    · rw [hji]
      exact Function.update_self i none s.guard
    · have hnone := h.fresh j hj
      unfold put
      simp only [Function.update_of_ne hji]
      exact hnone
  have hsole : ∀ j k n, (s.put i none).Owns j n → (s.put i none).Owns k n → j = k :=
    fun j k n hj hk => h.sole j k n (hown j n hj).2 (hown k n hk).2
  have hgone : Custody (s.put i none) :=
    h.passed_on rfl rfl hfresh hsole fun j n hj => ⟨j, (hown j n hj).2⟩
  rcases destroy_cases hstep with ⟨_, rfl⟩ | ⟨n, hn, rfl⟩
  · exact hgone
  · refine { hgone with notYet := ?_, once := ?_, ran := ?_ }
    · intro j k hj hran
      obtain ⟨hji, hold⟩ := hown j k hj
      rcases List.mem_append.mp hran with hran | hran
      · exact h.notYet j k hold hran
      · -- the callback that has just run was owned by the guard that is gone
        rw [List.mem_singleton.mp hran] at hold
        exact hji (h.sole j i n hold hn)
    · refine List.nodup_append.mpr ⟨h.once, by simp, ?_⟩
      intro a ha b hb heq
      rw [List.mem_singleton.mp hb] at heq
      rw [heq] at ha
      exact h.notYet i n hn ha
    · intro k hk
      rcases List.mem_append.mp hk with hk | hk
      · exact h.ran k hk
      · rw [List.mem_singleton.mp hk]
        exact h.owned i n hn

theorem step_moveConstruct {s s' : Guards} {right : Nat}
    (h : s.step (.moveConstruct right) = .ok s') :
    (∃ r, s.guard right = some r) ∧ (s.construct {}).moveAssign s.constructed right = .ok s' := by
  rw [step] at h
  split at h
  · cases h
  · rename_i r hr
    exact ⟨⟨r, hr⟩, h⟩

/-- **No operation breaks custody.** -/
theorem custody_step {s s' : Guards} {op : Op} (h : Custody s) (hstep : s.step op = .ok s') :
    Custody s' := by
  cases op with
  | construct =>
      rw [step] at hstep
      cases hstep
      exact custody_construct h
  | moveConstruct right =>
      exact custody_moveAssign (custody_constructEmpty h) (step_moveConstruct hstep).2
  | moveAssign left right => exact custody_moveAssign h hstep
  | destroy i => exact custody_destroy h hstep

/-! ## No destructor throws -/

/-- Every guard holds something to call. -/
def Callable (s : Guards) : Prop := ∀ i g, s.guard i = some g → g.callback ≠ .empty

theorem put_callable {s : Guards} {i : Nat} {g : Option ScopeGuard}
    (h : ∀ j g', j ≠ i → s.guard j = some g' → g'.callback ≠ .empty)
    (hg : ∀ g', g = some g' → g'.callback ≠ .empty) : Callable (s.put i g) := by
  intro j g' hj
  unfold put at hj
  by_cases hji : j = i
  · subst hji
    simp only [Function.update_self] at hj
    exact hg g' hj
  · simp only [Function.update_of_ne hji] at hj
    exact h j g' hji hj

theorem callable_moveAssign {s s' : Guards} {left right : Nat}
    (h : ∀ j g, j ≠ left → s.guard j = some g → g.callback ≠ .empty)
    (hright : ∀ r, s.guard right = some r → r.callback ≠ .empty)
    (hmove : s.moveAssign left right = .ok s') : Callable s' := by
  obtain ⟨l, r, _, hr, rfl⟩ := moveAssign_cases hmove
  refine put_callable ?_ ?_
  · intro j g hjl hj
    unfold put at hj
    by_cases hjr : j = right
    · subst hjr
      simp only [Function.update_self, Option.some.injEq] at hj
      subst hj
      simp
    · simp only [Function.update_of_ne hjr] at hj
      exact h j g hjl hj
  · intro g hg
    cases hg
    exact hright r hr

theorem callable_step {s s' : Guards} {op : Op} (hcustody : Custody s) (h : Callable s)
    (hstep : s.step op = .ok s') : Callable s' := by
  cases op with
  | construct =>
      rw [step] at hstep
      cases hstep
      refine put_callable (fun j g _ => h j g) ?_
      intro g hg
      cases hg
      simp
  | moveConstruct right =>
      obtain ⟨⟨r, hr⟩, hmove⟩ := step_moveConstruct hstep
      refine callable_moveAssign ?_ ?_ hmove
      · intro j g hj hg
        simp only [construct, put, Function.update_of_ne hj] at hg
        exact h j g hg
      · intro g hg
        have hne : right ≠ s.constructed := by
          intro heq
          rw [heq, hcustody.fresh _ (Nat.le_refl _)] at hr
          cases hr
        simp only [construct, put, Function.update_of_ne hne] at hg
        exact h right g hg
  | moveAssign left right =>
      exact callable_moveAssign (fun j g _ => h j g) (h right) hstep
  | destroy i =>
      rcases destroy_cases hstep with ⟨_, rfl⟩ | ⟨n, _, rfl⟩
      · exact put_callable (fun j g _ => h j g) (by simp)
      · exact put_callable (fun j g _ => h j g) (by simp)

theorem moveAssign_error {s : Guards} {left right : Nat} {e : Misuse}
    (h : s.moveAssign left right = .error e) : e = .dead := by
  unfold Guards.moveAssign at h
  split at h
  · cases h
  · cases h
    rfl

/-- An operation on guards that are there happens. -/
theorem step_error {s : Guards} {op : Op} {e : Misuse} (h : Callable s)
    (hstep : s.step op = .error e) : e = .dead := by
  cases op with
  | construct => cases hstep
  | moveConstruct right =>
      rw [step] at hstep
      split at hstep
      · cases hstep
        rfl
      · exact moveAssign_error hstep
  | moveAssign left right => exact moveAssign_error hstep
  | destroy i =>
      simp only [step, Guards.destroy] at hstep
      split at hstep
      · cases hstep
        rfl
      · rename_i g hg
        split at hstep
        · rename_i hempty
          exact absurd hempty (h i g hg)
        · cases hstep
        · cases hstep

/-- A run goes on as long as its guards are there. -/
theorem run_ok {s : Guards} (hcustody : Custody s) (h : Callable s) {ops : List Op}
    (hlive : Run.run step s ops ≠ .error .dead) : ∃ t, Run.run step s ops = .ok t := by
  cases hrun : Run.run step s ops with
  | ok t => exact ⟨t, rfl⟩
  | error e =>
      have hkeep : ∀ s op s', Custody s ∧ Callable s → step s op = .ok s' →
          Custody s' ∧ Callable s' := by
        intro s op s' hs hstep
        exact ⟨custody_step hs.1 hstep, callable_step hs.1 hs.2 hstep⟩
      have hfail : ∀ s op e, Custody s ∧ Callable s → step s op = .error e → e = .dead := by
        intro s op e hs hstep
        exact step_error hs.2 hstep
      have hdead : e = .dead := Run.run_error hkeep hfail ⟨hcustody, h⟩ hrun
      rw [hrun, hdead] at hlive
      exact absurd rfl hlive

end CppAmi.Proof
