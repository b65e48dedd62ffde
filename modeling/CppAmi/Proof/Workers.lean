import CppAmi.Model.Worker

/-!
# One worker

What a turn of the worker, of its stop, or of a thread that adds an element can do is
said once, by `Turned`. Whatever the turns, a worker is a first-in first-out queue in
front of its object: what the object becomes once everything queued has been processed
(`Worker.outcome`) is changed by `add` alone (`outcome_add`, `outcome_act`), and a
worker that was joined has processed it all (`Orderly.outcome_joined`).
-/

namespace CppAmi.Proof

open CppAmi Worker

variable {α ω : Type} {work : ω → α → Except Fault ω}

/-- Everything one turn can do. -/
inductive Turned (work : ω → α → Except Fault ω) (w : Worker α ω) :
    Worker.Label α → Worker α ω → Prop where
  | added (a : α) (hfree : ¬ w.HoldsMutex) :
      Turned work w (.add a) { w with queue := w.queue ++ [a] }.notifyOne
  | goesOn (hpc : w.pc = .checking) (hrun : w.threadRun = true) :
      Turned work w (.act .check) { w with pc := .evaluating }
  | leaves (hpc : w.pc = .checking) (hrun : w.threadRun = false) :
      Turned work w (.act .check) { w with pc := .leaving }
  | swapped (hpc : w.pc = .evaluating) :
      Turned work w (.act .evaluate)
        { w with queue := w.batch, batch := w.queue, pc := .handling }
  | waits (hpc : w.pc = .evaluating) (hrun : w.threadRun = true) (hqueue : w.queue = []) :
      Turned work w (.act .evaluate) { w with pc := .deciding }
  | blocked (hpc : w.pc = .deciding) : Turned work w (.act .block) { w with pc := .blocked }
  | woken (hpc : w.pc = .blocked) :
      Turned work w (.act .spuriousWake) { w with pc := .evaluating }
  | handled {a : α} {rest : List α} {object : ω} (hpc : w.pc = .handling)
      (hbatch : w.batch = a :: rest) (hwork : work w.object a = .ok object) :
      Turned work w (.act .handle) { w with batch := rest, object := object }
  | cleared (hpc : w.pc = .handling) (hbatch : w.batch = []) :
      Turned work w (.act .clear) { w with pc := .checking }
  | locked (hpc : w.pc = .leaving) : Turned work w (.act .lock) { w with pc := .draining }
  | drained {a : α} {rest : List α} {object : ω} (hpc : w.pc = .draining)
      (hqueue : w.queue = a :: rest) (hwork : work w.object a = .ok object) :
      Turned work w (.act .drain) { w with queue := rest, object := object }
  | finished (hpc : w.pc = .draining) (hqueue : w.queue = []) :
      Turned work w (.act .finish) { w with pc := .done }
  | stored (hstopper : w.stopper = .running) :
      Turned work w (.act .store) { w with threadRun := false, stopper := .stored }
  | notified (hstopper : w.stopper = .stored) :
      Turned work w (.act .notify) { w with stopper := .joining }.notifyOne
  | joined (hstopper : w.stopper = .joining) (hpc : w.pc = .done) :
      Turned work w (.act .join) { w with stopper := .joined }

theorem process_eq_ok {w w' : Worker α ω} {a : α} (h : process work w a = .ok w') :
    ∃ object, work w.object a = .ok object ∧ w' = { w with object := object } := by
  unfold process at h
  cases hw : work w.object a with
  | ok object =>
      rw [hw] at h
      cases h
      exact ⟨object, rfl, rfl⟩
  | error f =>
      rw [hw] at h
      cases h

theorem step_turned {w w' : Worker α ω} {l : Worker.Label α} (h : Worker.step work w l = .ok w') :
    Turned work w l w' := by
  cases l with
  | add a =>
      simp only [Worker.step, Worker.add] at h
      split at h
      · cases h
      · rename_i hfree
        cases h
        exact .added a hfree
  | act act =>
      simp only [Worker.step] at h
      cases act with
      | check =>
          obtain ⟨hpc, hw⟩ := Run.ite_eq_ok h
          cases hw
          by_cases hrun : w.threadRun = true
          · rw [if_pos hrun]
            exact .goesOn hpc hrun
          · rw [if_neg hrun]
            exact .leaves hpc (Bool.eq_false_iff.mpr hrun)
      | evaluate =>
          obtain ⟨hpc, hw⟩ := Run.ite_eq_ok h
          split at hw
          · cases hw
            exact .swapped hpc
          · rename_i hpred
            cases hw
            simp only [Bool.or_eq_true, Bool.not_eq_true', List.isEmpty_eq_false_iff, not_or,
              Bool.not_eq_false, not_not] at hpred
            exact .waits hpc hpred.1 hpred.2
      | block =>
          obtain ⟨hpc, hw⟩ := Run.ite_eq_ok h
          cases hw
          exact .blocked hpc
      | spuriousWake =>
          obtain ⟨hpc, hw⟩ := Run.ite_eq_ok h
          cases hw
          exact .woken hpc
      | handle =>
          simp only [actStep] at h
          split at h
          · rename_i hpc hbatch
            obtain ⟨object, hwork, rfl⟩ := process_eq_ok h
            exact .handled hpc hbatch hwork
          · cases h
      | clear =>
          simp only [actStep] at h
          split at h
          · rename_i hpc hbatch
            cases h
            exact .cleared hpc hbatch
          · cases h
      | lock =>
          obtain ⟨hpc, hw⟩ := Run.ite_eq_ok h
          cases hw
          exact .locked hpc
      | drain =>
          simp only [actStep] at h
          split at h
          · rename_i hpc hqueue
            obtain ⟨object, hwork, rfl⟩ := process_eq_ok h
            exact .drained hpc hqueue hwork
          · cases h
      | finish =>
          simp only [actStep] at h
          split at h
          · rename_i hpc hqueue
            cases h
            exact .finished hpc hqueue
          · cases h
      | store =>
          obtain ⟨hstopper, hw⟩ := Run.ite_eq_ok h
          cases hw
          exact .stored hstopper
      | notify =>
          obtain ⟨hstopper, hw⟩ := Run.ite_eq_ok h
          cases hw
          exact .notified hstopper
      | join =>
          obtain ⟨hjoin, hw⟩ := Run.ite_eq_ok h
          cases hw
          exact .joined hjoin.1 hjoin.2

/-! ## The notification -/

@[simp] theorem notifyOne_threadRun (w : Worker α ω) : w.notifyOne.threadRun = w.threadRun := by
  unfold notifyOne
  split <;> rfl

@[simp] theorem notifyOne_stopper (w : Worker α ω) : w.notifyOne.stopper = w.stopper := by
  unfold notifyOne
  split <;> rfl

@[simp] theorem notifyOne_queue (w : Worker α ω) : w.notifyOne.queue = w.queue := by
  unfold notifyOne
  split <;> rfl

@[simp] theorem notifyOne_batch (w : Worker α ω) : w.notifyOne.batch = w.batch := by
  unfold notifyOne
  split <;> rfl

@[simp] theorem notifyOne_object (w : Worker α ω) : w.notifyOne.object = w.object := by
  unfold notifyOne
  split <;> rfl

theorem notifyOne_pc (w : Worker α ω) :
    w.notifyOne.pc = if w.pc = .blocked then .evaluating else w.pc := by
  unfold notifyOne
  split <;> rfl

/-- A notification moves the worker out of `wait` and nowhere else. -/
theorem notifyOne_pc_eq {w : Worker α ω} {pc : WorkerPc} (hpc : pc ≠ .evaluating) :
    w.notifyOne.pc = pc ↔ w.pc = pc ∧ pc ≠ .blocked := by
  rw [notifyOne_pc]
  split <;> grind

/-! ## Where the elements are -/

/-- `thread_run_` is set until the stop begins. -/
def RunFlag (w : Worker α ω) : Prop := w.threadRun = true ↔ w.stopper = .running

theorem RunFlag.step {w w' : Worker α ω} {l : Worker.Label α} (h : RunFlag w)
    (hstep : Worker.step work w l = .ok w') : RunFlag w' := by
  unfold RunFlag at *
  cases step_turned hstep with
  | added a hfree => simpa using h
  | stored hstopper => simp
  | notified hstopper => simpa [hstopper] using h
  | joined hstopper hpc => simpa [hstopper] using h
  | _ => exact h

/-- Where the elements can be, and how far the stop has come. -/
structure Orderly (w : Worker α ω) : Prop where
  flag : RunFlag w
  /-- The local vector is only used in the loop over it. -/
  batch : w.pc ≠ .handling → w.batch = []
  /-- The worker only ends with everything processed. -/
  queue : w.pc = .done → w.queue = []
  /-- It only leaves the `while` when the stop has begun. -/
  behind : w.pc = .leaving ∨ w.pc = .draining ∨ w.pc = .done → w.threadRun = false
  joined : w.stopper = .joined → w.pc = .done

theorem Orderly.start (object : ω) : Orderly ({ object := object } : Worker α ω) :=
  ⟨by simp [RunFlag], fun _ => rfl, nofun, by simp, nofun⟩

/-- A worker that nobody stops is not done. -/
theorem Orderly.not_done {w : Worker α ω} (h : Orderly w) (hrun : w.stopper = .running) :
    w.pc ≠ .done := by
  intro hpc
  have hf := h.behind (.inr (.inr hpc))
  rw [h.flag.mpr hrun] at hf
  cases hf

theorem Orderly.notifyOne {w : Worker α ω} (h : Orderly w) : Orderly w.notifyOne := by
  refine ⟨?_, ?_, ?_, ?_, ?_⟩
  · unfold RunFlag
    rw [notifyOne_threadRun, notifyOne_stopper]
    exact h.flag
  · intro hpc
    rw [notifyOne_batch]
    exact h.batch fun hh => hpc ((notifyOne_pc_eq (by decide)).mpr ⟨hh, by decide⟩)
  · intro hpc
    rw [notifyOne_queue]
    exact h.queue ((notifyOne_pc_eq (by decide)).mp hpc).1
  · rw [notifyOne_threadRun, notifyOne_pc_eq (by decide), notifyOne_pc_eq (by decide),
      notifyOne_pc_eq (by decide)]
    rintro (hpc | hpc | hpc)
    · exact h.behind (.inl hpc.1)
    · exact h.behind (.inr (.inl hpc.1))
    · exact h.behind (.inr (.inr hpc.1))
  · intro hj
    rw [notifyOne_stopper] at hj
    exact (notifyOne_pc_eq (by decide)).mpr ⟨h.joined hj, by decide⟩

theorem Orderly.add {w w' : Worker α ω} {a : α} (h : Orderly w) (hrun : w.stopper = .running)
    (hstep : Worker.step work w (.add a) = .ok w') : Orderly w' := by
  cases step_turned hstep with
  | added _ hfree =>
      have hadd : Orderly { w with queue := w.queue ++ [a] } :=
        ⟨h.flag, h.batch, fun hpc => absurd hpc (h.not_done hrun), h.behind, h.joined⟩
      exact hadd.notifyOne

/-- An element is processed behind all that were added before it. -/
theorem outcome_add {w w' : Worker α ω} {a : α} (hstep : Worker.step work w (.add a) = .ok w') :
    w'.outcome work = (w.outcome work).bind fun object => Run.run work object [a] := by
  cases step_turned hstep with
  | added _ hfree =>
      unfold outcome
      rw [notifyOne_object, notifyOne_batch, notifyOne_queue, ← List.append_assoc, Run.run_append]

theorem object_add {w w' : Worker α ω} {a : α} (hstep : Worker.step work w (.add a) = .ok w') :
    w'.object = w.object ∧ w'.stopper = w.stopper := by
  cases step_turned hstep with
  | added _ hfree => exact ⟨notifyOne_object _, notifyOne_stopper _⟩

/-- A worker that still has turns is not joined yet. -/
theorem Orderly.turn {w w' : Worker α ω} (h : Orderly w) (hlive : w.pc ≠ .done)
    (hflag : RunFlag w') (hstopper : w'.stopper = w.stopper)
    (hbatch : w'.pc ≠ .handling → w'.batch = []) (hqueue : w'.pc = .done → w'.queue = [])
    (hbehind : w'.pc = .leaving ∨ w'.pc = .draining ∨ w'.pc = .done → w'.threadRun = false) :
    Orderly w' where
  flag := hflag
  batch := hbatch
  queue := hqueue
  behind := hbehind
  joined := by
    intro hj
    rw [hstopper] at hj
    exact absurd (h.joined hj) hlive

theorem Orderly.act {w w' : Worker α ω} {act : Act} (h : Orderly w)
    (hstep : Worker.step work w (.act act) = .ok w') : Orderly w' := by
  have hflag := h.flag.step hstep
  cases step_turned hstep with
  | goesOn hpc hrun | waits hpc hrun hqueue | blocked hpc | woken hpc =>
      have hb := h.batch (by simp [hpc])
      exact h.turn (by simp [hpc]) hflag rfl (fun _ => hb) (by simp) (by simp)
  | leaves hpc hrun =>
      have hb := h.batch (by simp [hpc])
      exact h.turn (by simp [hpc]) hflag rfl (fun _ => hb) (by simp) (fun _ => hrun)
  | swapped hpc =>
      exact h.turn (by simp [hpc]) hflag rfl (fun hne => absurd rfl hne) (by simp) (by simp)
  | handled hpc hcons hwork =>
      exact h.turn (by simp [hpc]) hflag rfl (fun hne => absurd hpc hne) (by simp [hpc])
        (by simp [hpc])
  | cleared hpc hnil =>
      exact h.turn (by simp [hpc]) hflag rfl (fun _ => hnil) (by simp) (by simp)
  | locked hpc =>
      have hb := h.batch (by simp [hpc])
      have hrun := h.behind (.inl hpc)
      exact h.turn (by simp [hpc]) hflag rfl (fun _ => hb) (by simp) (fun _ => hrun)
  | drained hpc hcons hwork =>
      have hb := h.batch (by simp [hpc])
      have hrun := h.behind (.inr (.inl hpc))
      exact h.turn (by simp [hpc]) hflag rfl (fun _ => hb) (by simp [hpc]) (fun _ => hrun)
  | finished hpc hnil =>
      have hb := h.batch (by simp [hpc])
      have hrun := h.behind (.inr (.inl hpc))
      exact h.turn (by simp [hpc]) hflag rfl (fun _ => hb) (fun _ => hnil) (fun _ => hrun)
  | stored hstopper => exact ⟨hflag, h.batch, h.queue, fun _ => rfl, by simp⟩
  | notified hstopper =>
      have hrun : RunFlag { w with stopper := .joining } := by
        have := h.flag
        simpa [RunFlag, hstopper] using this
      have hjoining : Orderly { w with stopper := .joining } :=
        ⟨hrun, h.batch, h.queue, h.behind, by simp⟩
      exact hjoining.notifyOne
  | joined hstopper hpc => exact ⟨hflag, h.batch, h.queue, h.behind, fun _ => hpc⟩

/-- No turn of the worker or of its stop changes what it will make of the object. -/
theorem outcome_act {w w' : Worker α ω} {act : Act} (h : Orderly w)
    (hstep : Worker.step work w (.act act) = .ok w') : w'.outcome work = w.outcome work := by
  unfold outcome
  cases step_turned hstep with
  | swapped hpc =>
      -- what is swapped for the queue is empty
      have hb := h.batch (by simp [hpc])
      simp [hb]
  | handled hpc hcons hwork => rw [hcons, List.cons_append, Run.run_cons hwork]
  | drained hpc hcons hwork =>
      have hb := h.batch (by simp [hpc])
      simp only [hb, hcons, List.nil_append]
      rw [Run.run_cons hwork]
  | notified hstopper => simp
  | _ => rfl

/-- A worker that was joined has processed all it was given. -/
theorem Orderly.outcome_joined {w : Worker α ω} (h : Orderly w) (hj : w.stopper = .joined) :
    w.outcome work = .ok w.object := by
  have hpc := h.joined hj
  unfold outcome
  rw [h.batch (by simp [hpc]), h.queue hpc]
  rfl

theorem process_fault {w : Worker α ω} {a : α} {f : Fault}
    (hstep : process work w a = .error (.fault f)) : work w.object a = .error f := by
  unfold process at hstep
  cases hw : work w.object a with
  | ok object =>
      rw [hw] at hstep
      cases hstep
  | error f' =>
      rw [hw] at hstep
      cases hstep
      rfl

/-- A turn only fails where the work on what is queued does. -/
theorem outcome_fault {w : Worker α ω} {l : Worker.Label α} {f : Fault} (h : Orderly w)
    (hstep : Worker.step work w l = .error (.fault f)) : w.outcome work = .error f := by
  unfold outcome
  cases l with
  | add a =>
      simp only [Worker.step, Worker.add] at hstep
      split at hstep <;> cases hstep
  | act act =>
      simp only [Worker.step] at hstep
      cases act with
      | handle =>
          simp only [actStep] at hstep
          split at hstep
          · rename_i hpc hcons
            have hwork := process_fault hstep
            rw [hcons, List.cons_append, Run.run, hwork]
          · cases hstep
      | drain =>
          simp only [actStep] at hstep
          split at hstep
          · rename_i hpc hcons
            have hwork := process_fault hstep
            rw [h.batch (by simp [hpc]), hcons, List.nil_append, Run.run, hwork]
          · cases hstep
      | evaluate =>
          simp only [actStep] at hstep
          split at hstep
          · split at hstep <;> cases hstep
          · cases hstep
      | _ =>
          simp only [actStep] at hstep
          split at hstep <;> cases hstep

/-- The loops in which a worker calls what its object does. -/
def Busy (w : Worker α ω) : Prop := w.pc = .handling ∨ w.pc = .draining

theorem Busy.add {w w' : Worker α ω} {a : α} (h : Busy w)
    (hstep : Worker.step work w (.add a) = .ok w') : Busy w' := by
  cases step_turned hstep with
  | added _ hfree =>
      rcases h with h | h
      · exact .inl ((notifyOne_pc_eq (by decide)).mpr ⟨h, by decide⟩)
      · exact absurd (.inr h) hfree

theorem Busy.stop {w w' : Worker α ω} {act : Act} (h : Busy w) (hstop : act.stops = true)
    (hstep : Worker.step work w (.act act) = .ok w') : Busy w' := by
  cases step_turned hstep with
  | stored hstopper | joined hstopper hpc => exact h
  | notified hstopper =>
      unfold Busy
      rw [notifyOne_pc_eq (by decide), notifyOne_pc_eq (by decide)]
      exact h.imp (fun hpc => ⟨hpc, by decide⟩) fun hpc => ⟨hpc, by decide⟩
  | _ => cases hstop

/-- The object only changes by the work of a busy worker. -/
theorem object_act {w w' : Worker α ω} {act : Act}
    (hstep : Worker.step work w (.act act) = .ok w') :
    w'.object = w.object ∨ (Busy w' ∧ ∃ a, work w.object a = .ok w'.object) := by
  cases step_turned hstep with
  | handled hpc hcons hwork => exact .inr ⟨.inl hpc, _, hwork⟩
  | drained hpc hcons hwork => exact .inr ⟨.inr hpc, _, hwork⟩
  | notified hstopper => exact .inl (notifyOne_object _)
  | _ => exact .inl rfl

theorem stopper_act {w w' : Worker α ω} {act : Act}
    (hstep : Worker.step work w (.act act) = .ok w') :
    act.stops = true ∨ w'.stopper = w.stopper := by
  cases step_turned hstep with
  | stored hstopper | notified hstopper | joined hstopper hpc => exact .inl rfl
  | _ => exact .inr rfl

theorem joined_act {w w' : Worker α ω} {act : Act} (hj : w.stopper = .joined)
    (hstep : Worker.step work w (.act act) = .ok w') : w'.stopper = .joined := by
  cases step_turned hstep with
  | stored hstopper | notified hstopper =>
      rw [hj] at hstopper
      cases hstopper
  | joined hstopper hpc => rfl
  | _ => exact hj

end CppAmi.Proof
