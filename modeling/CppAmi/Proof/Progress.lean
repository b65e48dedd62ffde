import CppAmi.Proof.Stops

/-!
# A worker comes to rest

Where a worker rests is in `wait`, or behind a stop at its end. Every turn brings it closer
(`potential_step`), and only an element that is added, or a wakeup without a reason, takes
it further away. While it does not rest the worker has a turn (`worker_moves`), and while it
does the stop has one (`stopper_moves`), unless its notification was lost.
-/

namespace CppAmi.Proof

open CppAmi Worker

/-! ## One worker -/

section Worker

variable {α ω : Type} {work : ω → α → Except Fault ω}

/-- How far the worker is from where it rests: in `wait`, or behind the stop at its end. -/
def pcRank (threadRun : Bool) : WorkerPc → Nat
  | .done => 0
  | .draining => 1
  | .leaving => 2
  | .checking => 3
  | .handling => 4
  | .evaluating => if threadRun then 2 else 5
  | .blocked => if threadRun then 0 else 6
  | .deciding => if threadRun then 1 else 7

def stopRank : StopperPc → Nat
  | .running => 9
  | .stored => 2
  | .joining => 1
  | .joined => 0

/-- An element is queued, swapped into the batch and handled, and may have woken the worker. -/
def potential (w : Worker α ω) : Nat :=
  pcRank w.threadRun w.pc + stopRank w.stopper + w.batch.length + 4 * w.queue.length

/-- The turns that an element brings, and those that come of a wakeup without a reason. -/
def turnCredit : Worker.Label α → Nat
  | .add _ => 7
  | .act .spuriousWake => 3
  | .act _ => 0

theorem potential_notifyOne (w : Worker α ω) : potential w.notifyOne ≤ potential w + 2 := by
  unfold potential
  rw [notifyOne_threadRun, notifyOne_stopper, notifyOne_batch, notifyOne_queue, notifyOne_pc]
  split
  · rename_i hpc
    rw [hpc]
    cases w.threadRun <;> simp [pcRank] <;> omega
  · omega

/-- Once the stop has begun the flag is clear. -/
theorem RunFlag.cleared {w : Worker α ω} (h : RunFlag w) (hs : w.stopper ≠ .running) :
    w.threadRun = false := by
  rw [← Bool.not_eq_true]
  exact fun hrun => hs (h.mp hrun)

/-- The predicate of `wait` lets the worker go on for a reason. -/
theorem evaluate_reason {w w' : Worker α ω}
    (hstep : Worker.step work w (.act .evaluate) = .ok w') (hpc' : w'.pc = .handling) :
    w.threadRun = false ∨ w.queue ≠ [] := by
  obtain ⟨hpc, hw⟩ := Run.ite_eq_ok hstep
  split at hw
  · rename_i hpred
    simpa using hpred
  · cases hw
    cases hpc'

/-- **Every turn of a worker brings it closer to rest.** -/
theorem potential_step {w w' : Worker α ω} {l : Worker.Label α} (h : Orderly w)
    (hstep : Worker.step work w l = .ok w') :
    potential w' + 1 ≤ potential w + turnCredit l := by
  cases step_turned hstep with
  | added a hfree =>
      have hwake := potential_notifyOne { w with queue := w.queue ++ [a] }
      simp only [potential, List.length_append, List.length_singleton, turnCredit] at hwake ⊢
      omega
  | goesOn hpc hrun =>
      simp only [potential, turnCredit, hpc, hrun, pcRank, if_true]
      omega
  | leaves hpc hrun =>
      simp only [potential, turnCredit, hpc, pcRank]
      omega
  | swapped hpc =>
      -- with nothing queued the worker only goes on when it is stopped
      have hb := h.batch (by simp [hpc])
      simp only [potential, turnCredit, hpc, hb, pcRank, List.length_nil]
      rcases evaluate_reason hstep rfl with hrun | hqueue
      · rw [hrun, if_neg (by simp)]
        omega
      · have hlen := List.length_pos_iff.mpr hqueue
        split <;> omega
  | waits hpc hrun hqueue =>
      simp only [potential, turnCredit, hpc, hrun, pcRank, if_true]
      omega
  | blocked hpc =>
      simp only [potential, turnCredit, hpc, pcRank]
      split <;> omega
  | woken hpc =>
      simp only [potential, turnCredit, hpc, pcRank]
      split <;> omega
  | handled hpc hbatch hwork =>
      simp only [potential, turnCredit, hbatch, List.length_cons]
      omega
  | cleared hpc hbatch =>
      simp only [potential, turnCredit, hpc, pcRank]
      omega
  | locked hpc =>
      simp only [potential, turnCredit, hpc, pcRank]
      omega
  | drained hpc hqueue hwork =>
      simp only [potential, turnCredit, hqueue, List.length_cons]
      omega
  | finished hpc hqueue =>
      simp only [potential, turnCredit, hpc, pcRank]
      omega
  | stored hstopper =>
      -- the stop pays for what is left of the `while`
      have hrank : pcRank false w.pc ≤ pcRank w.threadRun w.pc + 6 := by
        cases w.pc <;> cases w.threadRun <;> simp [pcRank]
      simp only [potential, turnCredit, hstopper, stopRank]
      omega
  | notified hstopper =>
      have hrun := h.flag.cleared (by simp [hstopper])
      simp only [potential, turnCredit, notifyOne_threadRun, notifyOne_stopper, notifyOne_batch,
        notifyOne_queue, notifyOne_pc, hstopper, hrun, stopRank]
      split
      · rename_i hpc
        simp only [hpc, pcRank, Bool.false_eq_true, if_false]
        omega
      · omega
  | joined hstopper hpc =>
      simp only [potential, turnCredit, hstopper, stopRank]
      omega

end Worker

end CppAmi.Proof
