import CppAmi.Lib.Run
import Mathlib.Algebra.GroupWithZero.Nat

/-!
# Bounding the length of runs

Amortised counting. Every step lowers the potential `Φ` by at least one, but for what is
paid in: `paid` says how much has been paid by a state, and `credit` what a label brings
with it. A run then takes no more steps than the potential it starts with and the payments
allow (`length_le`).
-/

namespace Potential

open Run

variable {ε σ ο : Type*} {step : σ → ο → Except ε σ} {Φ paid : σ → Nat} {credit : ο → Nat}
  {Inv : σ → Prop} {P : σ → ο → Prop}

/-- **The rule of amortised counting.** -/
theorem length_le (hinv : ∀ s o s', Inv s → P s o → step s o = .ok s' → Inv s')
    (hstep : ∀ s o s', Inv s → P s o → step s o = .ok s' →
      Φ s' + paid s + 1 ≤ Φ s + paid s' + credit o)
    {s t : σ} {os : List ο} (h0 : Inv s) (hP : Along step P s os) (hrun : run step s os = .ok t) :
    os.length + Φ t + paid s ≤ Φ s + paid t + (os.map credit).sum := by
  induction os generalizing s with
  | nil =>
      cases hrun
      simp only [List.length_nil, List.map_nil, List.sum_nil]
      omega
  | cons o os ih =>
      obtain ⟨m, hm, hrest⟩ := run_cons_eq_ok.mp hrun
      obtain ⟨hp, hP'⟩ := hP m hm
      have hone := hstep s o m h0 hp hm
      have hall := ih (hinv s o m h0 hp hm) hP' hrest
      simp only [List.length_cons, List.map_cons, List.sum_cons]
      omega

end Potential
