import CppAmi.Lib.Ownership
import CppAmi.Model.Sockets

/-!
# Whose descriptor it is

At any time every open descriptor has one owner, and what an owner holds is open: no socket
closes a descriptor twice, or one that belongs to somebody else by now
(`descriptors_owned`). A descriptor is only lost where the body of the constructor throws,
that is, where the arguments are looked at when the socket is connected already; otherwise
all is closed when all is over (`descriptors_closed`).
-/

namespace CppAmi.Proof

open CppAmi Sockets Ownership

variable {ι : Type} [DecidableEq ι] {targets : ι → Target}

/-! ## What one turn does -/

/-- Everything one turn can do. -/
inductive Lived (targets : ι → Target) (s : Sockets ι) : Sockets ι → Prop where
  | opened {i : ι} {sockFd : Int} (hpc : s.pc i = .start) (hfresh : s.Fresh sockFd) :
      Lived targets s { s.goto i (.opened sockFd) with fds := insert sockFd s.fds }
  | refused {i : ι} {what : Bytes} (hpc : s.pc i = .start) :
      Lived targets s (s.goto i (.threw (.runtimeError what)))
  | resolved {i : ι} {sockFd : Int} {res : Nat} (hpc : s.pc i = .opened sockFd)
      (hres : res ∉ s.infos) :
      Lived targets s { s.goto i (.resolved sockFd res) with infos := insert res s.infos }
  | unresolved {i : ι} {sockFd : Int} {what : Bytes} (hpc : s.pc i = .opened sockFd) :
      Lived targets s ((s.close sockFd).goto i (.threw (.runtimeError what)))
  | connected {i : ι} {sockFd : Int} {res : Nat} (hpc : s.pc i = .resolved sockFd res) :
      Lived targets s ((s.freeaddrinfo res).construct (targets i) i sockFd)
  | unconnected {i : ι} {sockFd : Int} {res : Nat} {what : Bytes}
      (hpc : s.pc i = .resolved sockFd res) :
      Lived targets s
        (((s.freeaddrinfo res).close sockFd).goto i (.threw (.runtimeError what)))
  | destroyed {i : ι} {sockFd : Int} (hpc : s.pc i = .constructed sockFd) :
      Lived targets s ((s.close sockFd).goto i .destroyed)
  | otherOpened {n : Nat} {fd : Int} (hnone : s.other n = none) (hfresh : s.Fresh fd) :
      Lived targets s
        { s with fds := insert fd s.fds, other := Function.update s.other n (some fd) }
  | otherClosed {n : Nat} {fd : Int} (hother : s.other n = some fd) :
      Lived targets s
        { s with fds := s.fds.erase fd, other := Function.update s.other n none }

omit [DecidableEq ι] in
/-- What was allocated and freed again leaves nothing behind. -/
theorem insert_freeaddrinfo {s : Sockets ι} {res : Nat} (h : res ∉ s.infos) :
    Sockets.freeaddrinfo { s with infos := insert res s.infos } res = s := by
  unfold Sockets.freeaddrinfo
  rw [Finset.erase_insert h]

theorem step_lived {s s' : Sockets ι} {l : Sockets.Label ι} (h : s.step targets l = .ok s') :
    Lived targets s s' := by
  cases l with
  | socket i sockFd =>
      simp only [Sockets.step] at h
      split at h
      · obtain ⟨hfresh, hs⟩ := Run.ite_eq_ok h
        cases hs
        exact .opened ‹_› hfresh
      · cases h
  | socketFails i what =>
      simp only [Sockets.step] at h
      split at h
      · cases h
        exact .refused ‹_›
      · cases h
  | getaddrinfo i res family =>
      simp only [Sockets.step] at h
      split at h
      · rename_i hpc
        split at h
        · cases h
        · rename_i hres
          rw [insert_freeaddrinfo hres] at h
          split at h
          · cases h
            exact .unresolved hpc
          · cases h
            exact .unresolved hpc
          · cases h
            exact .resolved hpc hres
          · cases h
            exact .resolved hpc hres
      · cases h
  | getaddrinfoFails i =>
      simp only [Sockets.step] at h
      split at h
      · cases h
        exact .unresolved ‹_›
      · cases h
  | connect i =>
      simp only [Sockets.step] at h
      split at h
      · cases h
        exact .connected ‹_›
      · cases h
  | connectFails i what =>
      simp only [Sockets.step] at h
      split at h
      · cases h
        exact .unconnected ‹_›
      · cases h
  | destroy i =>
      simp only [Sockets.step] at h
      split at h
      · cases h
        exact .destroyed ‹_›
      · cases h
  | otherOpen n fd =>
      simp only [Sockets.step] at h
      obtain ⟨⟨hnone, hfresh⟩, hs⟩ := Run.ite_eq_ok h
      cases hs
      exact .otherOpened hnone hfresh
  | otherClose n =>
      simp only [Sockets.step] at h
      split at h
      · cases h
        exact .otherClosed ‹_›
      · cases h

/-! ## Who holds what -/

section

variable {s s' : Sockets ι} {i : ι}

/-- A turn of one socket leaves what the others hold. -/
theorem socket_holds (hother : s'.other = s.other) (hpc : ∀ j, j ≠ i → s'.pc j = s.pc j)
    (hlost : ∀ j, j ≠ i → s'.lost j = s.lost j) :
    s'.holds = Function.update s.holds (.inl i) (s'.descriptor i) := by
  funext o
  cases o with
  | inl j =>
      by_cases hji : j = i
      · subst hji
        rw [Function.update_self]
        rfl
      · rw [Function.update_of_ne (fun h => hji (Sum.inl.inj h))]
        show s'.descriptor j = s.descriptor j
        unfold Sockets.descriptor
        rw [hpc j hji, hlost j hji]
  | inr n =>
      rw [Function.update_of_ne (by simp)]
      show s'.other n = s.other n
      rw [hother]

omit [DecidableEq ι] in
/-- So does a turn of the rest of the process. -/
theorem holds_other [DecidableEq (ι ⊕ Nat)] (s : Sockets ι) (n : Nat) (fds : Finset Int)
    (fd : Option Int) :
    Sockets.holds { s with fds := fds, other := Function.update s.other n fd }
      = Function.update s.holds (.inr n) fd := by
  funext o
  cases o with
  | inl j =>
      rw [Function.update_of_ne (by simp)]
      rfl
  | inr m =>
      by_cases hmn : m = n
      · subst hmn
        rw [Function.update_self]
        exact Function.update_self _ _ _
      · rw [Function.update_of_ne (fun h => hmn (Sum.inr.inj h))]
        exact Function.update_of_ne hmn _ _

theorem guarded_turn (hpc : ∀ j, j ≠ i → s'.pc j = s.pc j) :
    s'.guarded = Function.update s.guarded i (s'.guarded i) := by
  funext j
  by_cases hji : j = i
  · subst hji
    rw [Function.update_self]
  · rw [Function.update_of_ne hji]
    unfold Sockets.guarded
    rw [hpc j hji]

/-! ## What the constructor made of its arguments -/

/-- A constructor has lost its descriptor when its body has thrown, which says what is wrong
with its arguments. -/
structure Judged (targets : ι → Target) (s : Sockets ι) : Prop where
  lost : ∀ i, s.lost i ≠ none ↔ s.Rejected i
  rejects : ∀ i, s.Rejected i → (targets i).hostname = [] ∨ (targets i).port = 0
  accepts : ∀ i sockFd, s.pc i = .constructed sockFd →
    (targets i).hostname ≠ [] ∧ (targets i).port ≠ 0

omit [DecidableEq ι] in
theorem not_rejected (h : (s.pc i).Unjudged) : ¬ s.Rejected i := by
  rintro (hr | hr)
  · rw [hr] at h
    exact h
  · rw [hr] at h
    exact h

omit [DecidableEq ι] in
theorem Judged.not_lost (h : Judged targets s) (hpc : (s.pc i).Unjudged) : s.lost i = none := by
  by_contra hlost
  exact not_rejected hpc ((h.lost i).mp hlost)

/-- A turn that does not look at the arguments changes nothing about them. -/
theorem Judged.goto (h : Judged targets s) {pc : SocketPc}
    (hpc : s'.pc = Function.update s.pc i pc) (hlost : s'.lost = s.lost)
    (hold : ¬ s.Rejected i) (hnew : pc.Unjudged) : Judged targets s' := by
  have hsame : ∀ j, j ≠ i → s'.pc j = s.pc j := by
    intro j hji
    rw [hpc, Function.update_of_ne hji]
  have hrejected : ∀ j, s'.Rejected j ↔ s.Rejected j := by
    intro j
    by_cases hji : j = i
    · subst hji
      have hnot : ¬ s'.Rejected j := not_rejected (by rw [hpc, Function.update_self]; exact hnew)
      exact ⟨fun h' => absurd h' hnot, fun h' => absurd h' hold⟩
    · unfold Sockets.Rejected
      rw [hsame j hji]
  refine ⟨?_, ?_, ?_⟩
  · intro j
    rw [hlost, hrejected]
    exact h.lost j
  · intro j hj
    exact h.rejects j ((hrejected j).mp hj)
  · intro j sockFd hj
    by_cases hji : j = i
    · subst hji
      rw [hpc, Function.update_self] at hj
      rw [hj] at hnew
      exact hnew.elim
    · rw [hsame j hji] at hj
      exact h.accepts j sockFd hj

/-- The body of the constructor throws and loses the descriptor, or accepts the arguments. -/
theorem Judged.rejected (h : Judged targets s) {err : OpenError} {sockFd : Int}
    (herr : err = .invalidArgument (ascii "Invalid hostname") ∧ (targets i).hostname = []
      ∨ err = .outOfRange (ascii "Invalid port") ∧ (targets i).port = 0) :
    Judged targets
      { s.goto i (.threw err) with lost := Function.update s.lost i (some sockFd) } := by
  refine ⟨?_, ?_, ?_⟩
  · intro j
    by_cases hji : j = i
    · subst hji
      simp only [Sockets.Rejected, Sockets.goto, Function.update_self]
      rcases herr with ⟨rfl, _⟩ | ⟨rfl, _⟩ <;> simp
    · simp only [Sockets.Rejected, Sockets.goto, Function.update_of_ne hji]
      exact h.lost j
  · intro j hj
    by_cases hji : j = i
    · subst hji
      rcases herr with ⟨_, hbad⟩ | ⟨_, hbad⟩
      · exact Or.inl hbad
      · exact Or.inr hbad
    · simp only [Sockets.Rejected, Sockets.goto, Function.update_of_ne hji] at hj
      exact h.rejects j hj
  · intro j fd hj
    by_cases hji : j = i
    · subst hji
      simp only [Sockets.goto, Function.update_self] at hj
      cases hj
    · simp only [Sockets.goto, Function.update_of_ne hji] at hj
      exact h.accepts j fd hj

theorem Judged.accepted (h : Judged targets s) {sockFd : Int} (hold : ¬ s.Rejected i)
    (hhost : (targets i).hostname ≠ []) (hport : (targets i).port ≠ 0) :
    Judged targets (s.goto i (.constructed sockFd)) := by
  have hnot : ¬ (s.goto i (.constructed sockFd)).Rejected i := by
    simp [Sockets.Rejected, Sockets.goto]
  refine ⟨?_, ?_, ?_⟩
  · intro j
    by_cases hji : j = i
    · subst hji
      exact ⟨fun hl => absurd ((h.lost j).mp hl) hold, fun hr => absurd hr hnot⟩
    · simp only [Sockets.Rejected, Sockets.goto, Function.update_of_ne hji]
      exact h.lost j
  · intro j hj
    by_cases hji : j = i
    · subst hji
      exact absurd hj hnot
    · simp only [Sockets.Rejected, Sockets.goto, Function.update_of_ne hji] at hj
      exact h.rejects j hj
  · intro j fd hj
    by_cases hji : j = i
    · subst hji
      exact ⟨hhost, hport⟩
    · simp only [Sockets.goto, Function.update_of_ne hji] at hj
      exact h.accepts j fd hj

omit [DecidableEq ι] in
theorem close_lost (s : Sockets ι) (sockFd : Int) : (s.close sockFd).lost = s.lost := by
  unfold Sockets.close
  split <;> rfl

theorem goto_close (s : Sockets ι) (sockFd : Int) (i : ι) (pc : SocketPc) :
    ((s.close sockFd).goto i pc).pc = Function.update s.pc i pc := by
  unfold Sockets.close
  split <;> rfl

theorem judged_lived (h : Judged targets s) (hs : Lived targets s s') : Judged targets s' := by
  cases hs with
  | opened hpc hfresh => exact h.goto rfl rfl (not_rejected (by rw [hpc]; trivial)) trivial
  | refused hpc => exact h.goto rfl rfl (not_rejected (by rw [hpc]; trivial)) trivial
  | resolved hpc hres => exact h.goto rfl rfl (not_rejected (by rw [hpc]; trivial)) trivial
  | unresolved hpc =>
      exact h.goto (goto_close s _ _ _) (close_lost s _) (not_rejected (by rw [hpc]; trivial))
        trivial
  | @connected i sockFd res hpc =>
      have hold : ¬ s.Rejected i := not_rejected (by rw [hpc]; trivial)
      have hfreed : Judged targets (s.freeaddrinfo res) := ⟨h.lost, h.rejects, h.accepts⟩
      unfold Sockets.construct
      split
      · exact hfreed.rejected (Or.inl ⟨rfl, ‹_›⟩)
      · split
        · exact hfreed.rejected (Or.inr ⟨rfl, ‹_›⟩)
        · exact hfreed.accepted hold ‹_› ‹_›
  | @unconnected i sockFd res what hpc =>
      exact h.goto (goto_close (s.freeaddrinfo res) _ _ _) (close_lost (s.freeaddrinfo res) _)
        (not_rejected (by rw [hpc]; trivial)) trivial
  | @destroyed i sockFd hpc =>
      have hold : ¬ s.Rejected i := by simp [Sockets.Rejected, hpc]
      exact h.goto (goto_close s _ _ _) (close_lost s _) hold trivial
  | otherOpened hnone hfresh => exact ⟨h.lost, h.rejects, h.accepts⟩
  | otherClosed hother => exact ⟨h.lost, h.rejects, h.accepts⟩

/-! ## Whose it is -/

/-- What is open is held, by one owner. -/
structure Held (s : Sockets ι) : Prop where
  fds : Ownership.Owned s.fds s.holds
  infos : Ownership.Owned s.infos s.guarded
  nonneg : ∀ fd ∈ s.fds, 0 ≤ fd

/-- A turn of one socket, which may open or close its descriptor and allocate or free its
addresses. -/
theorem Held.turn (h : Held s) {pc pc' : SocketPc} (hpc : s.pc i = pc)
    (hpc' : s'.pc = Function.update s.pc i pc') (hother : s'.other = s.other)
    (hlost : ∀ j, j ≠ i → s'.lost j = s.lost j)
    (hfds : Ownership.Turn s.fds (pc.descriptor (s.lost i)) s'.fds (pc'.descriptor (s'.lost i)))
    (hinfos : Ownership.Turn s.infos pc.guarded s'.infos pc'.guarded)
    (hnonneg : ∀ fd ∈ s'.fds, fd ∈ s.fds ∨ 0 ≤ fd) : Held s' := by
  have hothers : ∀ j, j ≠ i → s'.pc j = s.pc j := by
    intro j hji
    rw [hpc', Function.update_of_ne hji]
  have hown : s'.pc i = pc' := by rw [hpc', Function.update_self]
  refine ⟨?_, ?_, ?_⟩
  · rw [socket_holds hother hothers hlost, Sockets.descriptor, hown]
    refine h.fds.turn (o := .inl i) ?_ hfds
    show (s.pc i).descriptor _ = _
    rw [hpc]
  · rw [guarded_turn hothers, Sockets.guarded, hown]
    refine h.infos.turn ?_ hinfos
    show (s.pc i).guarded = _
    rw [hpc]
  · intro fd hfd
    rcases hnonneg fd hfd with hold | hnew
    · exact h.nonneg fd hold
    · exact hnew

/-- **The step lemma:** every turn leaves what is open held, and held once. -/
theorem held_lived (h : Held s) (hj : Judged targets s) (hs : Lived targets s s') : Held s' := by
  have hclose : ∀ {i : ι} {sockFd : Int} {pc : SocketPc}, s.pc i = pc →
      pc.descriptor (s.lost i) = some sockFd → sockFd ≠ -1 := by
    intro i sockFd pc hpc hfd
    have hpos := h.nonneg sockFd (h.fds.held (.inl i) sockFd (by rw [← hfd, ← hpc]; rfl))
    omega
  cases hs with
  | @opened i sockFd hpc hfresh =>
      refine h.turn hpc rfl rfl (fun _ _ => rfl) (.opens hfresh.2) .same ?_
      intro fd hfd
      rcases Finset.mem_insert.mp hfd with rfl | hold
      · exact Or.inr hfresh.1
      · exact Or.inl hold
  | @refused i what hpc =>
      have hlost := hj.not_lost (i := i) (by rw [hpc]; trivial)
      refine h.turn hpc rfl rfl (fun _ _ => rfl) ?_ .same fun fd hfd => Or.inl hfd
      show Ownership.Turn s.fds none s.fds (s.lost i)
      rw [hlost]
      exact .same
  | resolved hpc hres =>
      exact h.turn hpc rfl rfl (fun _ _ => rfl) .same (.opens hres) fun fd hfd => Or.inl hfd
  | @unresolved i sockFd what hpc =>
      have hlost := hj.not_lost (i := i) (by rw [hpc]; trivial)
      unfold Sockets.close
      rw [if_neg (hclose hpc rfl)]
      refine h.turn hpc rfl rfl (fun _ _ => rfl) ?_ .same
        fun fd hfd => Or.inl (Finset.mem_of_mem_erase hfd)
      show Ownership.Turn s.fds (some sockFd) (s.fds.erase sockFd) (s.lost i)
      rw [hlost]
      exact .closes
  | @connected i sockFd res hpc =>
      unfold Sockets.construct
      split
      · refine h.turn hpc rfl rfl (fun j hji => Function.update_of_ne hji _ _) ?_ .closes
          fun fd hfd => Or.inl hfd
        show Ownership.Turn s.fds (some sockFd) s.fds (Function.update s.lost i (some sockFd) i)
        rw [Function.update_self]
        exact .same
      · split
        · refine h.turn hpc rfl rfl (fun j hji => Function.update_of_ne hji _ _) ?_ .closes
            fun fd hfd => Or.inl hfd
          show Ownership.Turn s.fds (some sockFd) s.fds (Function.update s.lost i (some sockFd) i)
          rw [Function.update_self]
          exact .same
        · exact h.turn hpc rfl rfl (fun _ _ => rfl) .same .closes fun fd hfd => Or.inl hfd
  | @unconnected i sockFd res what hpc =>
      have hlost := hj.not_lost (i := i) (by rw [hpc]; trivial)
      unfold Sockets.close
      rw [if_neg (hclose hpc rfl)]
      refine h.turn hpc rfl rfl (fun _ _ => rfl) ?_ .closes
        fun fd hfd => Or.inl (Finset.mem_of_mem_erase hfd)
      show Ownership.Turn s.fds (some sockFd) (s.fds.erase sockFd) (s.lost i)
      rw [hlost]
      exact .closes
  | @destroyed i sockFd hpc =>
      unfold Sockets.close
      rw [if_neg (hclose hpc rfl)]
      exact h.turn hpc rfl rfl (fun _ _ => rfl) .closes .same
        fun fd hfd => Or.inl (Finset.mem_of_mem_erase hfd)
  | @otherOpened n fd hnone hfresh =>
      refine ⟨?_, h.infos, ?_⟩
      · rw [holds_other]
        exact h.fds.opens hnone hfresh.2
      · intro fd' hfd'
        rcases Finset.mem_insert.mp hfd' with rfl | hold
        · exact hfresh.1
        · exact h.nonneg fd' hold
  | @otherClosed n fd hother =>
      refine ⟨?_, h.infos, fun fd' hfd' => h.nonneg fd' (Finset.mem_of_mem_erase hfd')⟩
      rw [holds_other]
      exact h.fds.closes hother

omit [DecidableEq ι] in
theorem held_init : Held ({} : Sockets ι) where
  fds := by
    have heq : ({} : Sockets ι).holds = fun _ => none := by
      funext o
      cases o <;> rfl
    rw [heq]
    exact Ownership.Owned.empty
  infos := Ownership.Owned.empty
  nonneg := by
    intro fd hfd
    cases hfd

omit [DecidableEq ι] in
theorem judged_init (targets : ι → Target) : Judged targets ({} : Sockets ι) where
  lost := by simp [Sockets.Rejected]
  rejects := by simp [Sockets.Rejected]
  accepts := by simp

theorem run_held {labels : List (Sockets.Label ι)}
    (hrun : Sockets.runLabels targets labels = .ok s) : Held s ∧ Judged targets s := by
  have hkeep : ∀ s l s', Held s ∧ Judged targets s → Sockets.step targets s l = .ok s' →
      Held s' ∧ Judged targets s' :=
    fun _ _ _ h hstep =>
      ⟨held_lived h.1 h.2 (step_lived hstep), judged_lived h.2 (step_lived hstep)⟩
  exact Run.invariant_of_step hkeep ⟨held_init, judged_init targets⟩ hrun

end

/-! ## The theorems -/

/--
**Every descriptor has one owner.**

Whatever the kernel answers and in whatever order the sockets and the rest of the process
take their turns: a descriptor that a socket has to close is open and nobody else's, what is
open has somebody to close it, and the same holds of what `getaddrinfo` has allocated. So
no guard and no destructor closes a descriptor twice, or one that was handed out again.
-/
theorem descriptors_owned (targets : ι → Target) {labels : List (Sockets.Label ι)}
    {s : Sockets ι} (hrun : Sockets.runLabels targets labels = .ok s) :
    Ownership.Owned s.fds s.holds ∧ Ownership.Owned s.infos s.guarded := by
  obtain ⟨hheld, _⟩ := run_held hrun
  exact ⟨hheld.fds, hheld.infos⟩

/--
**When all is over, what is still open was lost by a constructor that rejected its arguments.**

The constructor looks at its arguments when `open` has connected the socket. If it throws
then nobody closes the descriptor. With arguments that it does not reject, everything is
closed and freed at the end, whichever call has failed, if the rest of the process has
closed what it had opened.
-/
theorem descriptors_closed (targets : ι → Target) {labels : List (Sockets.Label ι)}
    {s : Sockets ι} (hrun : Sockets.runLabels targets labels = .ok s) (hover : ∀ i, s.Over i)
    (hother : ∀ n, s.other n = none) :
    s.infos = ∅ ∧ (∀ fd, fd ∈ s.fds ↔ ∃ i, s.Rejected i ∧ s.lost i = some fd)
      ∧ (∀ i, s.lost i ≠ none ↔ s.Rejected i)
      ∧ ((∀ i, (targets i).hostname ≠ [] ∧ (targets i).port ≠ 0) → s.fds = ∅) := by
  obtain ⟨hheld, hjudged⟩ := run_held hrun
  have hmem : ∀ fd, fd ∈ s.fds ↔ ∃ i, s.Rejected i ∧ s.lost i = some fd := by
    intro fd
    constructor
    · intro hfd
      obtain ⟨o, ho⟩ := hheld.fds.kept fd hfd
      cases o with
      | inr n =>
          have ho : s.other n = some fd := ho
          rw [hother n] at ho
          cases ho
      | inl i =>
          have ho : (s.pc i).descriptor (s.lost i) = some fd := ho
          have hi := hover i
          unfold Sockets.Over at hi
          cases hpc : s.pc i with
          | threw err =>
              rw [hpc] at ho
              have hlost : s.lost i = some fd := ho
              exact ⟨i, (hjudged.lost i).mp (by rw [hlost]; simp), hlost⟩
          | start => rw [hpc] at ho; cases ho
          | destroyed => rw [hpc] at ho; cases ho
          | opened sockFd => rw [hpc] at hi; exact hi.elim
          | resolved sockFd res => rw [hpc] at hi; exact hi.elim
          | constructed sockFd => rw [hpc] at hi; exact hi.elim
    · rintro ⟨i, hrejected, hlost⟩
      refine hheld.fds.held (.inl i) fd ?_
      show (s.pc i).descriptor (s.lost i) = some fd
      rcases hrejected with hpc | hpc
      · rw [hpc]
        exact hlost
      · rw [hpc]
        exact hlost
  refine ⟨?_, hmem, hjudged.lost, ?_⟩
  · refine Finset.eq_empty_of_forall_notMem ?_
    intro res hres
    obtain ⟨i, hi⟩ := hheld.infos.kept res hres
    have hi : (s.pc i).guarded = some res := hi
    have hdone := hover i
    unfold Sockets.Over at hdone
    cases hpc : s.pc i with
    | resolved sockFd res => rw [hpc] at hdone; exact hdone.elim
    | _ => rw [hpc] at hi; cases hi
  · intro hgood
    refine Finset.eq_empty_of_forall_notMem ?_
    intro fd hfd
    obtain ⟨i, hrejected, _⟩ := (hmem fd).mp hfd
    rcases hjudged.rejects i hrejected with hhost | hport
    · exact (hgood i).1 hhost
    · exact (hgood i).2 hport

namespace Sample

/-- One socket is connected and closed, and another one gets its descriptor. -/
def twoSockets : List (Sockets.Label Bool) :=
  [.socket true 3, .getaddrinfo true 0 (some .inet), .connect true, .destroy true,
    .socket false 3]

def local5038 : Bool → Target := fun _ => { hostname := ascii "localhost" }

/-- The second socket is given an empty view, behind which the name of a host stands. -/
def emptyView : Bool → Target
  | true => { hostname := ascii "localhost" }
  | false => { hostname := [], behind := ascii "localhost" }

/-- The second socket is connected, and then its constructor throws. -/
def rejectedSocket : List (Sockets.Label Bool) :=
  twoSockets ++ [.getaddrinfo false 0 (some .inet), .connect false]

end Sample

theorem descriptors_owned_reused :
    ∃ s, Sockets.runLabels Sample.local5038 Sample.twoSockets = .ok s
      ∧ Ownership.Owned s.fds s.holds ∧ Ownership.Owned s.infos s.guarded := by
  have hrun : ∃ s, Sockets.runLabels Sample.local5038 Sample.twoSockets = .ok s := ⟨_, rfl⟩
  obtain ⟨s, hrun⟩ := hrun
  exact ⟨s, hrun, descriptors_owned _ hrun⟩

/-- The first socket has closed the descriptor, and the second one has lost it. -/
theorem descriptors_closed_rejected :
    ∃ s, Sockets.runLabels Sample.emptyView Sample.rejectedSocket = .ok s
      ∧ s.lost false = some 3
      ∧ s.infos = ∅ ∧ (∀ fd, fd ∈ s.fds ↔ ∃ i, s.Rejected i ∧ s.lost i = some fd)
      ∧ (∀ i, s.lost i ≠ none ↔ s.Rejected i)
      ∧ ((∀ i, (Sample.emptyView i).hostname ≠ [] ∧ (Sample.emptyView i).port ≠ 0) →
        s.fds = ∅) := by
  have hrun : ∃ s, Sockets.runLabels Sample.emptyView Sample.rejectedSocket = .ok s
      ∧ s.lost false = some 3 ∧ (∀ i, s.Over i) ∧ ∀ n, s.other n = none :=
    ⟨_, rfl, rfl, fun i => by cases i <;> trivial, fun _ => rfl⟩
  obtain ⟨s, hrun, hlost, hover, hother⟩ := hrun
  exact ⟨s, hrun, hlost, descriptors_closed _ hrun hover hother⟩

end CppAmi.Proof
