import CppAmi.Proof.Custody

/-!
# Each callback runs once

A callback that has neither an owner nor run is lost, and stays so; an assignment onto
a guard that owns a callback loses it. So every callback runs exactly once if and only
if there is no such assignment (`callbacks_once_iff`).
-/

namespace CppAmi.Proof

open CppAmi Guards

/-! ## Callbacks that are not lost -/

/-- A callback has run, or has an owner that will run it. -/
def Safe (s : Guards) (n : Nat) : Prop := n ∈ s.invoked ∨ ∃ i, s.Owns i n

/-- No callback is lost. -/
def Kept (s : Guards) : Prop := ∀ n < s.given, Safe s n

theorem safe_constructEmpty {s : Guards} (h : Custody s) (n : Nat) :
    Safe (s.construct {}) n ↔ Safe s n := by
  have hsame : ∀ j, (s.construct {}).Owns j n ↔ s.Owns j n := by
    intro j
    rw [owns_construct h]
    simp
  unfold Safe
  simp only [hsame]
  exact Iff.rfl

/-- A move makes no callback safe that was not. -/
theorem safe_of_moveAssign {s s' : Guards} {left right n : Nat}
    (h : s.moveAssign left right = .ok s') (hsafe : Safe s' n) : Safe s n := by
  have hown := owns_moveAssign h
  obtain ⟨_, _, _, _, rfl⟩ := moveAssign_cases h
  rcases hsafe with hran | ⟨j, hj⟩
  · exact Or.inl hran
  · rcases (hown j n).mp hj with ⟨_, hold⟩ | ⟨_, _, hold⟩
    · exact Or.inr ⟨right, hold⟩
    · exact Or.inr ⟨j, hold⟩

/-- A move onto a guard that owns nothing loses nothing. -/
theorem moveAssign_safe {s s' : Guards} {left right n : Nat}
    (h : s.moveAssign left right = .ok s') (hfree : left ≠ right → ¬ s.Owns left n)
    (hsafe : Safe s n) : Safe s' n := by
  have hown := owns_moveAssign h
  obtain ⟨_, _, _, _, rfl⟩ := moveAssign_cases h
  rcases hsafe with hran | ⟨j, hj⟩
  · exact Or.inl hran
  · by_cases hjr : j = right
    · exact Or.inr ⟨left, (hown left n).mpr (Or.inl ⟨rfl, hjr ▸ hj⟩)⟩
    · refine Or.inr ⟨j, (hown j n).mpr (Or.inr ⟨?_, hjr, hj⟩)⟩
      intro hjl
      rw [hjl] at hj hjr
      exact hfree hjr hj

/-- **A lost callback stays lost.** -/
theorem safe_of_step {s s' : Guards} {op : Op} (h : Custody s) (hstep : s.step op = .ok s')
    {n : Nat} (hn : n < s.given) (hsafe : Safe s' n) : Safe s n := by
  cases op with
  | construct =>
      rw [step] at hstep
      cases hstep
      rcases hsafe with hran | ⟨j, hj⟩
      · exact Or.inl hran
      · rcases (owns_construct h j n _).mp hj with ⟨_, hg⟩ | hold
        · injection hg with hg
          injection hg with hg
          omega
        · exact Or.inr ⟨j, hold⟩
  | moveConstruct right =>
      exact (safe_constructEmpty h n).mp (safe_of_moveAssign (step_moveConstruct hstep).2 hsafe)
  | moveAssign left right => exact safe_of_moveAssign hstep hsafe
  | destroy i =>
      rcases destroy_cases hstep with ⟨_, rfl⟩ | ⟨m, hm, rfl⟩
      · rcases hsafe with hran | ⟨j, hj⟩
        · exact Or.inl hran
        · rcases (owns_put s i j n none).mp hj with ⟨_, hg⟩ | ⟨_, hold⟩
          · cases hg
          · exact Or.inr ⟨j, hold⟩
      · rcases hsafe with hran | ⟨j, hj⟩
        · rcases List.mem_append.mp hran with hran | hran
          · exact Or.inl hran
          · rw [List.mem_singleton.mp hran]
            exact Or.inr ⟨i, hm⟩
        · rcases (owns_put s i j n none).mp hj with ⟨_, hg⟩ | ⟨_, hold⟩
          · cases hg
          · exact Or.inr ⟨j, hold⟩

theorem given_le_step {s s' : Guards} {op : Op} (hstep : s.step op = .ok s') :
    s.given ≤ s'.given := by
  cases op with
  | construct =>
      rw [step] at hstep
      cases hstep
      exact Nat.le_succ s.given
  | moveConstruct right =>
      obtain ⟨_, _, _, _, rfl⟩ := moveAssign_cases (step_moveConstruct hstep).2
      exact Nat.le_refl s.given
  | moveAssign left right =>
      obtain ⟨_, _, _, _, rfl⟩ := moveAssign_cases hstep
      exact Nat.le_refl s.given
  | destroy i =>
      rcases destroy_cases hstep with ⟨_, rfl⟩ | ⟨n, _, rfl⟩
      · exact Nat.le_refl s.given
      · exact Nat.le_refl s.given

/-- **Where no owner is assigned to, nothing is lost.** -/
theorem kept_step {s s' : Guards} {op : Op} (h : Custody s) (hkept : Kept s)
    (hfree : s.TargetFree op) (hstep : s.step op = .ok s') : Kept s' := by
  intro n hn
  cases op with
  | construct =>
      rw [step] at hstep
      cases hstep
      rcases Nat.lt_succ_iff_lt_or_eq.mp hn with hlt | heq
      · rcases hkept n hlt with hran | ⟨j, hj⟩
        · exact Or.inl hran
        · exact Or.inr ⟨j, (owns_construct h j n _).mpr (Or.inr hj)⟩
      · exact Or.inr ⟨s.constructed, (owns_construct h _ n _).mpr (Or.inl ⟨rfl, by rw [heq]⟩)⟩
  | moveConstruct right =>
      obtain ⟨_, hmove⟩ := step_moveConstruct hstep
      have hgiven := given_le_step hstep
      refine moveAssign_safe hmove ?_ ((safe_constructEmpty h n).mpr (hkept n ?_))
      · intro _ hown
        rcases (owns_construct h _ n {}).mp hown with ⟨_, hg⟩ | hold
        · cases hg
        · exact h.not_owns n hold
      · obtain ⟨_, _, _, _, rfl⟩ := moveAssign_cases hmove
        exact hn
  | moveAssign left right =>
      refine moveAssign_safe hstep (fun hne => hfree hne n) (hkept n ?_)
      obtain ⟨_, _, _, _, rfl⟩ := moveAssign_cases hstep
      exact hn
  | destroy i =>
      rcases destroy_cases hstep with ⟨hnone, rfl⟩ | ⟨m, hm, rfl⟩
      · rcases hkept n hn with hran | ⟨j, hj⟩
        · exact Or.inl hran
        · refine Or.inr ⟨j, (owns_put s i j n none).mpr (Or.inr ⟨?_, hj⟩)⟩
          intro hji
          exact hnone n (hji ▸ hj)
      · rcases hkept n hn with hran | ⟨j, hj⟩
        · exact Or.inl (List.mem_append_left _ hran)
        · by_cases hji : j = i
          · -- the owner is the guard that is destroyed
            have hnm : n = m := by
              unfold Owns at hj hm
              rw [hji, hm] at hj
              cases hj
              rfl
            rw [hnm]
            exact Or.inl (by simp)
          · exact Or.inr ⟨j, (owns_put s i j n none).mpr (Or.inr ⟨hji, hj⟩)⟩

/-- **An assignment onto an owner loses what it owns.** -/
theorem targetFree_of_kept {s s' : Guards} {op : Op} (h : Custody s) (hstep : s.step op = .ok s')
    (hkept : Kept s') : s.TargetFree op := by
  cases op with
  | moveAssign left right =>
      intro hne n hown
      have hgiven : n < s'.given := Nat.lt_of_lt_of_le (h.owned left n hown) (given_le_step hstep)
      have hmove := owns_moveAssign hstep
      have hsafe := hkept n hgiven
      obtain ⟨_, _, _, _, rfl⟩ := moveAssign_cases hstep
      rcases hsafe with hran | ⟨j, hj⟩
      · exact h.notYet left n hown hran
      · rcases (hmove j n).mp hj with ⟨_, hold⟩ | ⟨hjl, _, hold⟩
        · exact hne (h.sole left right n hown hold)
        · exact hjl (h.sole j left n hold hown)
  | _ => trivial

/-! ## Once and not before -/

theorem kept_init : Kept {} := fun n hn => absurd hn (Nat.not_lt_zero n)

theorem kept_of_step {s s' : Guards} {op : Op} (h : Custody s) (hstep : s.step op = .ok s')
    (hkept : Kept s') : Kept s := by
  intro n hn
  exact safe_of_step h hstep hn (hkept n (Nat.lt_of_lt_of_le hn (given_le_step hstep)))

/--
**Every callback runs exactly once exactly when no guard that owns one is assigned to.**

For any operations on guards that are there: none throws, and once all guards are
destroyed every callback has run exactly once, and never while it was owned, if and
only if no assignment was onto a guard, other than the one it came from, that still
owned a callback.
-/
theorem callbacks_once_iff (ops : List Op) (hlive : Run.run step {} ops ≠ .error .dead) :
    ∃ s, Run.run step {} ops = .ok s
      ∧ (s.AllDestroyed →
        (((∀ n < s.given, s.invoked.count n = 1) ∧ Run.Always step NotYet {} ops)
          ↔ Run.Along step TargetFree {} ops)) := by
  have hcallable : Callable {} := fun i g hg => by cases hg
  obtain ⟨s, hrun⟩ := run_ok custody_init hcallable hlive
  refine ⟨s, hrun, fun hdone => ⟨?_, ?_⟩⟩
  · intro h
    -- nothing is lost in the end, and so nothing ever was
    have hkept : Kept s := by
      intro n hn
      refine Or.inl (List.count_pos_iff.mp ?_)
      rw [h.1 n hn]
      exact Nat.one_pos
    have hall := Run.always_of_final (fun s op s' h hstep => custody_step h hstep)
      (fun s op s' h hstep hkept => kept_of_step h hstep hkept) custody_init hrun hkept
    exact Run.along_of_always (fun s op s' h hstep h' => targetFree_of_kept h.1 hstep h'.2) hall
  · intro h
    have hinit : Custody {} ∧ Kept {} := ⟨custody_init, kept_init⟩
    have hstep : ∀ s op s', Custody s ∧ Kept s → s.TargetFree op → s.step op = .ok s' →
        Custody s' ∧ Kept s' := by
      intro s op s' hs hfree hstep
      exact ⟨custody_step hs.1 hstep, kept_step hs.1 hs.2 hfree hstep⟩
    refine ⟨?_, Run.always_of_along hstep (fun s hs => hs.1.notYet) hinit h⟩
    intro n hn
    obtain ⟨hcustody, hkept⟩ := Run.invariant hstep hinit h hrun
    rcases hkept n hn with hran | ⟨i, hown⟩
    · exact List.count_eq_one_of_mem hcustody.once hran
    · unfold Owns at hown
      rw [hdone i] at hown
      cases hown

/-- Guards that are moved through a fresh guard and onto themselves: both callbacks run. -/
theorem callbacks_once_chain :
    ∃ s, Run.run step {} [.construct, .moveConstruct 0, .moveAssign 1 1, .moveAssign 0 1,
        .construct, .destroy 1, .destroy 2, .destroy 0] = .ok s
      ∧ (s.AllDestroyed →
        (((∀ n < s.given, s.invoked.count n = 1)
            ∧ Run.Always step NotYet {} [.construct, .moveConstruct 0, .moveAssign 1 1,
              .moveAssign 0 1, .construct, .destroy 1, .destroy 2, .destroy 0])
          ↔ Run.Along step TargetFree {} [.construct, .moveConstruct 0, .moveAssign 1 1,
              .moveAssign 0 1, .construct, .destroy 1, .destroy 2, .destroy 0])) :=
  callbacks_once_iff _ (by
    intro h
    cases h)

/-- A guard that still owns a callback is assigned to: its callback never runs. -/
theorem assigned_over_lost :
    ∃ s, Run.run step {} [.construct, .construct, .moveAssign 0 1, .destroy 0, .destroy 1] = .ok s
      ∧ s.AllDestroyed ∧ s.given = 2 ∧ s.invoked = [1]
      ∧ ¬ ∀ n < s.given, s.invoked.count n = 1 := by
  refine ⟨_, rfl, ?_, rfl, rfl, ?_⟩
  · intro i
    match i with
    | 0 => rfl
    | 1 => rfl
    | i + 2 => rfl
  · intro h
    exact absurd (h 0 (by decide)) (by decide)

end CppAmi.Proof
