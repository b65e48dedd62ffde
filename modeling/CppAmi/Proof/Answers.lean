import CppAmi.Proof.EndToEnd

/-!
# No answer is lost

A call that waits in `get` can return as soon as the messages dispatched for it complete a
response (`answered_returns`).
-/

namespace CppAmi.Proof

open CppAmi EventDispatcher World Connection

/-! ## Complete responses -/

/-- A first message that starts no list completes the response. -/
theorem completes_event {m : Event} (h : m.startsList = false) (ms : List Event) :
    Completes (m :: ms) (.event m) where
  first := ⟨ms, rfl⟩
  complete := progressOf_event h []
  least := by
    intro k hk
    have hk : k = 0 := Nat.lt_one_iff.mp hk
    subst hk
    rfl

/-- Messages that complete a response do so whatever comes behind them. -/
theorem progressOf_completes {ms : List Event} {reaction : Reaction} (h : Completes ms reaction) :
    progressOf (ms.map .message) = .done (.value (some reaction)) := by
  obtain ⟨rest, hrest⟩ := h.first
  rw [← hrest, List.map_append]
  unfold progressOf
  rw [List.foldl_append]
  have hdone := h.complete
  unfold progressOf at hdone
  rw [hdone, foldl_done]

section

variable {ι : Type} [DecidableEq ι] {calls : ι → Call} {w : World ι} {c : Connection ι} {i : ι}
  {f : Nat}

omit [DecidableEq ι] in
/-- The pipe of an untimed call in progress stands for its response. -/
theorem Agrees.tracks (h : Agrees calls w) (huntimed : (calls i).timeout = none)
    (hf : (w.pc i).future = some f) :
    Tracks (abs w.dispatcher) (calls i).actionId f (w.response calls i) := by
  have hfollows := (h.sessions (calls i).actionId).follows i rfl
  have hnot : ¬ (calls i).timeout.isSome := by simp [huntimed]
  unfold Follows at hfollows
  cases hpc : w.pc i with
  | registered f' =>
      rw [hpc] at hf hfollows
      cases hf
      exact hfollows
  | getting f' =>
      rw [hpc] at hf hfollows
      cases hf
      rcases hfollows.1 with htracks | ⟨htimed, _⟩
      · exact htracks
      · exact absurd htimed hnot
  | waiting f' =>
      rw [hpc] at hfollows
      exact absurd hfollows.1 hnot
  | timedOut f' =>
      rw [hpc] at hfollows
      exact absurd hfollows.1 hnot
  | start | returned r | threw err | writeThrew err =>
      rw [hpc] at hf
      cases hf

omit [DecidableEq ι] in
/-- What a call in progress has heard is what was dispatched with its ActionID. -/
theorem Agrees.response_dispatched (h : Agrees calls w) (hstands : StandsFor (fun _ => none) w c)
    (hf : (w.pc i).future = some f) :
    w.response calls i = progressOf ((c.dispatched.filter fun m =>
      m.actionId = some (calls i).actionId).map .message) := by
  have hpc : w.pc i ≠ .start := by
    intro hstart
    rw [hstart] at hf
    cases hf
  have hheard := heardSince_eq hstands (calls i).actionId 0
  rw [List.drop_zero] at hheard
  unfold World.response
  rw [← h.heard i hpc, hheard]

/-- A call whose future has a value returns it. -/
theorem get_returns {r : Option Reaction} (hpc : c.pc i = .getting f)
    (hready : c.dispatcher.shared[f]? = some (.value r)) :
    ∃ c', c.step calls (.invoke (.get i)) = .ok c' ∧ c'.pc i = .returned r := by
  have hcalling : c.calling.step calls (.get i) = .ok (c.calling.goto i (.returned r)) := by
    simp only [World.step, show c.calling.pc i = _ from hpc,
      show c.calling.dispatcher.shared[f]? = _ from hready]
  refine ⟨{ c with pc := Function.update c.pc i (.returned r) }, ?_,
    Function.update_self _ _ _⟩
  simp only [Connection.step, Label.caller, Option.isSome_some, if_true, hcalling]
  rfl

end

variable {ι : Type} [DecidableEq ι]

/--
**A call that has been answered can return.**

Untimed calls with distinct ActionIDs whose writes succeed, and a server whose messages
with a call's ActionID are complete only after the call has written: a call that waits, and
whose response is complete in the messages that `dispatch_event` was called with, has its
turn, and returns that response.
-/
theorem answered_returns (calls : ι → Call) (huntimed : ∀ i, (calls i).timeout = none)
    (hinj : ∀ i j, (calls i).actionId = (calls j).actionId → i = j) (sockFd : Int)
    {labels : List (Connection.Label ι)} {c : Connection ι}
    (hanswer : Run.Along (Connection.step calls) (Connection.Answering calls) (connected sockFd)
      labels)
    (hrun : Connection.runLabels calls sockFd labels = .ok c) {i : ι} {f : Nat}
    (hpc : c.pc i = .getting f) {reaction : Reaction}
    (hcomp : Completes (c.dispatched.filter fun m => m.actionId = some (calls i).actionId)
      reaction) :
    ∃ c', c.step calls (.invoke (.get i)) = .ok c' ∧ c'.pc i = .returned (some reaction) := by
  obtain ⟨w, hstands, hagrees⟩ := run_agrees huntimed hinj hanswer hrun
  have hw := hstands.stands
  have hf : (w.pc i).future = some f := by
    rw [hw.pc, hpc]
    rfl
  have htracks := hagrees.tracks (huntimed i) hf
  rw [hagrees.response_dispatched hw hf, progressOf_completes hcomp, hw.dispatcher] at htracks
  exact get_returns hpc htracks.1

namespace Sample

/-- The answer has been dispatched, and the call has not returned yet. -/
def ready : List (Connection.Label Unit) := answered.dropLast

end Sample

theorem answered_returns_ready :
    ∃ c m, Connection.runLabels (fun _ => { action := Sample.ping "7" }) 3 Sample.ready = .ok c
      ∧ ∃ c', c.step (fun _ => { action := Sample.ping "7" }) (.invoke (.get ())) = .ok c'
        ∧ c'.pc () = .returned (some (.event m)) := by
  have hrun : ∃ c m, Connection.runLabels (fun _ => { action := Sample.ping "7" }) 3
      Sample.ready = .ok c ∧ c.pc () = .getting 0
      ∧ (c.dispatched.filter fun m => m.actionId = some (ascii "7")) = [m]
      ∧ m.startsList = false := ⟨_, _, rfl, rfl, rfl, rfl⟩
  obtain ⟨c, m, hrun, hpc, hone, hstart⟩ := hrun
  refine ⟨c, m, hrun, answered_returns _ (fun _ => rfl) (fun _ _ _ => rfl) 3 ?_ hrun hpc ?_⟩
  · iterate 3 refine (Run.along_cons rfl).mpr ⟨trivial, ?_⟩
    refine (Run.along_cons rfl).mpr ⟨fun m hm i hi => List.mem_cons_self, ?_⟩
    iterate 7 refine (Run.along_cons rfl).mpr ⟨trivial, ?_⟩
    trivial
  · have hcomp := completes_event hstart []
    rw [← hone] at hcomp
    exact hcomp

end CppAmi.Proof
