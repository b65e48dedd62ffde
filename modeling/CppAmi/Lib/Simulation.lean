import CppAmi.Lib.Run

/-!
# Forward simulation

A relation `R` between the states of two systems is a forward simulation when every step
of the first is matched by a run of the second that leads to related states. The runs are
then matched too (`run_forward`), and three things are carried over on the way: what is
`seen` of a label, a condition on the labels, and whatever holds of every state the second
system reaches.
-/

namespace Simulation

open Run

variable {ε σ ο ε' τ κ β : Type*} {step : σ → ο → Except ε σ} {step' : τ → κ → Except ε' τ}

/-- A run of the second system that matches `seen` of the first, and meets `Q`. -/
structure Matched (step' : τ → κ → Except ε' τ) (seen' : κ → Option β) (Q : τ → κ → Prop)
    (t : τ) (seen : List β) (ks : List κ) (t' : τ) : Prop where
  run : Run.run step' t ks = .ok t'
  along : Along step' Q t ks
  seen : ks.filterMap seen' = seen

variable {seen : ο → Option β} {seen' : κ → Option β} {Q : τ → κ → Prop}

theorem along_append {t t' : τ} {ks ks' : List κ} (h : run step' t ks = .ok t')
    (hQ : Along step' Q t ks) (hQ' : Along step' Q t' ks') : Along step' Q t (ks ++ ks') := by
  induction ks generalizing t with
  | nil =>
      cases h
      exact hQ'
  | cons k ks ih =>
      obtain ⟨m, hm, hrest⟩ := run_cons_eq_ok.mp h
      rw [List.cons_append, along_cons hm]
      exact ⟨(hQ m hm).1, ih hrest (hQ m hm).2⟩

theorem Matched.refl (t : τ) : Matched step' seen' Q t [] [] t := ⟨rfl, trivial, rfl⟩

/-- One step is a run. -/
theorem Matched.one {t t' : τ} {k : κ} (h : step' t k = .ok t') (hQ : Q t k) :
    Matched step' seen' Q t (seen' k).toList [k] t' where
  run := by rw [run_cons h, run_nil]
  along := (along_cons h).mpr ⟨hQ, trivial⟩
  seen := by cases hk : seen' k <;> simp [hk]

theorem Matched.trans {t t' t'' : τ} {bs bs' : List β} {ks ks' : List κ}
    (h : Matched step' seen' Q t bs ks t') (h' : Matched step' seen' Q t' bs' ks' t'') :
    Matched step' seen' Q t (bs ++ bs') (ks ++ ks') t'' where
  run := run_append_eq_ok.mpr ⟨t', h.run, h'.run⟩
  along := along_append h.run h.along h'.along
  seen := by rw [List.filterMap_append, h.seen, h'.seen]

/-- **The rule of forward simulation.** -/
theorem run_forward {R : σ → τ → Prop} {P : σ → ο → Prop}
    (hstep : ∀ s t o s', R s t → P s o → step s o = .ok s' →
      ∃ ks t', Matched step' seen' Q t (seen o).toList ks t' ∧ R s' t')
    {s s' : σ} {t : τ} {os : List ο} (h0 : R s t) (hP : Along step P s os)
    (hrun : run step s os = .ok s') :
    ∃ ks t', Matched step' seen' Q t (os.filterMap seen) ks t' ∧ R s' t' := by
  induction os generalizing s t with
  | nil =>
      cases hrun
      exact ⟨[], t, .refl t, h0⟩
  | cons o os ih =>
      obtain ⟨m, hm, hrest⟩ := run_cons_eq_ok.mp hrun
      obtain ⟨hp, hP'⟩ := hP m hm
      obtain ⟨ks, t', hks, hR⟩ := hstep s t o m h0 hp hm
      obtain ⟨ks', t'', hks', hR'⟩ := ih hR hP' hrest
      refine ⟨ks ++ ks', t'', ?_, hR'⟩
      have hall := hks.trans hks'
      cases ho : seen o with
      | none => simpa [List.filterMap_cons, ho] using hall
      | some b => simpa [List.filterMap_cons, ho] using hall

/-- What an invariant of the second system says of the states of the first. -/
theorem run_transfer {R : σ → τ → Prop} {P : σ → ο → Prop} {Inv : τ → Prop}
    (hstep : ∀ s t o s', R s t → P s o → step s o = .ok s' →
      ∃ ks t', Matched step' seen' Q t (seen o).toList ks t' ∧ R s' t')
    (hinv : ∀ t k t', Inv t → Q t k → step' t k = .ok t' → Inv t')
    {s s' : σ} {t : τ} {os : List ο} (h0 : R s t) (hi : Inv t) (hP : Along step P s os)
    (hrun : run step s os = .ok s') : ∃ t', R s' t' ∧ Inv t' := by
  obtain ⟨ks, t', hks, hR⟩ := run_forward hstep h0 hP hrun
  exact ⟨t', hR, Run.invariant hinv hi hks.along hks.run⟩

end Simulation
