import CppAmi.Proof.Workers

/-!
# What stopping a worker does

`add_buf` and `add_event` change the queue and notify with the mutex held. The stop
holds nothing when it stores `thread_run_` and notifies, so its only notification can
come between the worker's predicate and its block, and reach nobody. That is the one
way a worker is stranded (`never_stranded_iff`).
-/

namespace CppAmi.Proof

open CppAmi Worker

variable {α ω : Type} {work : ω → α → Except Fault ω}

/-- While the stopper joins, the worker is neither blocked nor about to be. -/
structure Wakes (w : Worker α ω) : Prop where
  flag : RunFlag w
  awake : w.stopper = .joining → w.pc ≠ .deciding ∧ w.pc ≠ .blocked

theorem Wakes.not_stranded {w : Worker α ω} (h : Wakes w) : ¬ Stranded w := by
  intro hs
  exact (h.awake hs.2.1).2 hs.2.2

theorem Wakes.step {w w' : Worker α ω} {l : Worker.Label α} (h : Wakes w)
    (htime : NotifiesInTime w l) (hstep : Worker.step work w l = .ok w') : Wakes w' := by
  refine ⟨h.flag.step hstep, ?_⟩
  have hawake := h.awake
  cases step_turned hstep with
  | added a hfree =>
      rw [notifyOne_stopper, ne_eq, ne_eq, notifyOne_pc_eq (by decide), notifyOne_pc_eq (by decide)]
      intro hj
      exact ⟨fun hpc => (hawake hj).1 hpc.1, fun hpc => hpc.2 rfl⟩
  | waits hpc hrun hqueue =>
      -- the predicate is true once the stop has begun
      intro hj
      have hr : w.stopper = .running := h.flag.mp hrun
      rw [show w.stopper = .joining from hj] at hr
      cases hr
  | blocked hpc => exact fun hj => absurd hpc (hawake hj).1
  | stored hstopper => exact nofun
  | notified hstopper =>
      intro _
      rw [ne_eq, ne_eq, notifyOne_pc_eq (by decide), notifyOne_pc_eq (by decide)]
      exact ⟨fun hpc => htime hpc.1, fun hpc => hpc.2 rfl⟩
  | joined hstopper hpc => exact nofun
  | handled hpc hbatch hwork | drained hpc hqueue hwork => exact fun _ => by simp [hpc]
  | _ => exact fun _ => by simp

/-- Neither the worker nor the stopper can move on by itself. -/
theorem Stranded.stuck {w w' : Worker α ω} {l : Worker.Label α} (h : Stranded w)
    (hstep : Worker.step work w l = .ok w') : l = .act .spuriousWake ∨ ∃ a, l = .add a := by
  obtain ⟨_, hj, hb⟩ := h
  cases step_turned hstep with
  | added a hfree => exact .inr ⟨a, rfl⟩
  | woken hpc => exact .inl rfl
  | stored hstopper | notified hstopper =>
      rw [hj] at hstopper
      cases hstopper
  | joined hstopper hpc =>
      rw [hb] at hpc
      cases hpc
  | _ hpc =>
      rw [hb] at hpc
      cases hpc

/-- A notification that comes too early strands the worker with its next turn. -/
theorem strands_of_notify {w w' : Worker α ω} (hflag : RunFlag w) (hpc : w.pc = .deciding)
    (hstep : Worker.step work w (.act .notify) = .ok w') :
    ∃ w'', Worker.step work w' (.act .block) = .ok w'' ∧ Stranded w'' := by
  cases step_turned hstep with
  | notified hstopper =>
      have hrun : w.threadRun = false := by
        rw [← Bool.not_eq_true]
        intro hr
        rw [hflag.mp hr] at hstopper
        cases hstopper
      have hw : ({ w with stopper := .joining } : Worker α ω).notifyOne.pc = .deciding :=
        (notifyOne_pc_eq (by decide)).mpr ⟨hpc, by decide⟩
      refine ⟨_, if_pos hw, ?_, ?_, rfl⟩
      · rw [notifyOne_threadRun]
        exact hrun
      · rw [notifyOne_stopper]

/-- The worker is not stranded, and its block would not strand it. -/
def Unstranded (work : ω → α → Except Fault ω) (w : Worker α ω) : Prop :=
  ¬ Stranded w ∧ ∀ w', Worker.step work w (.act .block) = .ok w' → ¬ Stranded w'

theorem unstranded_iff (object : ω) (labels : List (Worker.Label α)) :
    Run.Along (Worker.step work) NotifiesInTime { object := object } labels ↔
      Run.Always (Worker.step work) (Unstranded work) { object := object } labels := by
  constructor
  · intro htime
    refine Run.always_of_along (fun w l w' (h : Wakes w) ht hstep => h.step ht hstep) ?_
      ⟨by simp [RunFlag], nofun⟩ htime
    intro w h
    exact ⟨h.not_stranded, fun w' hstep => (h.step (l := .act .block) trivial hstep).not_stranded⟩
  · intro halways
    have hflags : Run.Always (Worker.step work) RunFlag { object := object } labels :=
      Run.always_of_along (fun w l w' h _ hstep => h.step hstep) (fun w h => h) (by simp [RunFlag])
        (Run.along_of_forall (P := fun _ _ => True) (fun _ _ => trivial) _ _)
    refine Run.along_of_always ?_ (hflags.and halways)
    intro w l w' h hstep h'
    cases l with
    | add a => trivial
    | act act =>
        cases act with
        | notify =>
            intro hpc
            obtain ⟨w'', hblock, hs⟩ := strands_of_notify h.1 hpc hstep
            exact h'.2.2 w'' hblock hs
        | _ => trivial

/--
**A stop strands the worker only when its notification comes too early.**

Whatever the turns of the worker, of the stop, and of the threads that call `add_buf`
or `add_event`: no state of the run is stranded, and none leads into one by the block
the worker is about to do, if and only if `notify_one` never comes between the worker's
predicate and its block. This holds of both classes.
-/
theorem never_stranded_iff (labels : List (Worker.Label Bytes)) :
    (Run.Along StreamParser.threadStep NotifiesInTime StreamParser.startWorkThread labels ↔
      Run.Always StreamParser.threadStep
        (fun w => ¬ Stranded w ∧
          ∀ w', StreamParser.threadStep w (.act .block) = .ok w' → ¬ Stranded w')
        StreamParser.startWorkThread labels)
    ∧ (Run.Along EventDispatcher.threadStep NotifiesInTime EventDispatcher.startWorkThread labels ↔
      Run.Always EventDispatcher.threadStep
        (fun w => ¬ Stranded w ∧
          ∀ w', EventDispatcher.threadStep w (.act .block) = .ok w' → ¬ Stranded w')
        EventDispatcher.startWorkThread labels) :=
  ⟨unstranded_iff _ labels, unstranded_iff _ labels⟩

/-- Both stops can notify a worker that has not blocked yet, and join it when it has. -/
theorem notification_lost :
    (∃ labels w, Run.run StreamParser.threadStep StreamParser.startWorkThread labels = .ok w
      ∧ Stranded w)
    ∧ ∃ labels w, Run.run EventDispatcher.threadStep EventDispatcher.startWorkThread labels = .ok w
      ∧ Stranded w := by
  have hstranded {ω : Type} (work : ω → Bytes → Except Fault ω) (object : ω) :
      ∃ w, Run.run (Worker.step work) { object := object }
          [.act .check, .act .evaluate, .act .store, .act .notify, .act .block] = .ok w
        ∧ Stranded w :=
    ⟨_, rfl, rfl, rfl, rfl⟩
  exact ⟨⟨_, hstranded _ _⟩, ⟨_, hstranded _ _⟩⟩

end CppAmi.Proof
