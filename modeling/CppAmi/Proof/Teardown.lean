import CppAmi.Proof.Answers
import CppAmi.Proof.Cleanup
import CppAmi.Proof.Pipes
import CppAmi.Proof.Shutdown

/-!
# What becomes of the calls when a connection goes away

`~EventDispatcher` joins its worker and then calls `cleanup_object`, which completes the
open pipes with a null pointer. With assertions it expects that there are none. So the calls
that still wait are the question: each has its response if that was read, and `nullptr` if
not, and the assertion holds exactly when no call is without its response
(`closed_outcomes`).
-/

namespace CppAmi.Proof

open CppAmi EventDispatcher StreamParser KeyValDict World Connection

/-! ## With assertions -/

/-- With assertions, teardown completes when no pipe is open. -/
theorem destroy_asserts {d : EventDispatcher} (h : WF d) :
    (∃ d', d.destroy true = .ok d') ↔ d.promiseMap = ∅ := by
  constructor
  · rintro ⟨d', hd'⟩
    cases hentries : d.promiseMap.entries with
    | nil => exact AList.ext hentries
    | cons e entries => simp [destroy, cleanupObject, hentries, bind, Except.bind] at hd'
  · intro hempty
    have hlists : d.eventMap = ∅ := by
      refine eq_empty_of_lookup fun a => eventMap_none h ?_
      rw [hempty]
      rfl
    have hclean : d.cleanupObject true = .ok d := by
      simp [cleanupObject, hempty, hlists, bind, Except.bind, pure, Except.pure]
    unfold destroy
    rw [hclean]
    exact ⟨_, rfl⟩

/-! ## Responses -/

/-- Messages of one ActionID complete a response exactly when they make a result. -/
theorem progressOf_value_iff {a : Bytes} {ms : List Event} (h : ∀ m ∈ ms, m.actionId = some a)
    (reaction : Reaction) :
    progressOf (ms.map .message) = .done (.value (some reaction)) ↔ Completes ms reaction := by
  refine ⟨?_, progressOf_completes⟩
  intro hdone
  rcases gathered_or_completes h with ⟨hun, _⟩ | ⟨reaction', hdone', hcomp⟩
  · rw [hdone] at hun
    exact hun.elim
  · rw [hdone] at hdone'
    cases hdone'
    exact hcomp

/-- Teardown leaves in a pipe the response that its messages complete, and a null pointer where
they complete none. -/
theorem teardown_result {d d' : EventDispatcher} (hs : Sound d) {a : Bytes} {f : Nat}
    {ms : List Event} (hids : ∀ m ∈ ms, m.actionId = some a)
    (htracks : Tracks (abs d) a f (progressOf (ms.map .message)))
    (hafter : (d.shared[f]? = some .pending → ∃ a, d.promiseMap.lookup a = some f) →
      d'.shared[f]? = d.shared[f]?.map afterTeardown) :
    ∃ r, d'.shared[f]? = some (.value r)
      ∧ ∀ reaction, r = some reaction ↔ Completes ms reaction := by
  have hshared := htracks.shared hs.inv
  rw [abs_shared] at hshared
  rcases gathered_or_completes hids with ⟨hun, _⟩ | ⟨reaction, hdone, hcomp⟩
  · have hslot : (abs d).slot a = some (f, progressOf (ms.map .message)) := by
      rcases htracks.cases hs.inv with ⟨_, hslot⟩ | ⟨outcome, hdone, _⟩
      · exact hslot
      · rw [hdone] at hun
        exact hun.elim
    have howned : ∃ a, d.promiseMap.lookup a = some f := by
      simp only [abs, Option.map_eq_some_iff, Prod.mk.injEq] at hslot
      obtain ⟨g, hg, rfl, _⟩ := hslot
      exact ⟨a, hg⟩
    have hpending : d.shared[f]? = some .pending := hs.inv.pending a f _ hslot
    refine ⟨none, ?_, ?_⟩
    · rw [hafter fun _ => howned, hpending]
      rfl
    · intro reaction
      rw [← progressOf_value_iff hids]
      constructor
      · intro h
        cases h
      · intro h
        rw [h] at hun
        exact hun.elim
  · rw [hdone] at hshared
    refine ⟨some reaction, ?_, ?_⟩
    · have hnot : d.shared[f]? ≠ some .pending := by
        rw [hshared]
        simp [Progress.outcome]
      rw [hafter fun hpending => absurd hpending hnot, hshared]
      rfl
    · intro reaction'
      rw [← progressOf_value_iff hids, hdone]
      constructor
      · rintro ⟨⟩
        rfl
      · rintro ⟨⟩
        rfl

section

variable {ι : Type} [DecidableEq ι] {calls : ι → Call} {w : World ι} {c : Connection ι} {i : ι}
  {f : Nat}

omit [DecidableEq ι] in
/-- No pipe is open exactly when the response of every call in progress is finished. -/
theorem Agrees.no_pipe_iff (h : Agrees calls w) (huntimed : ∀ i, (calls i).timeout = none) :
    w.dispatcher.promiseMap = ∅
      ↔ ∀ i f, (w.pc i).future = some f → ∃ outcome, w.response calls i = .done outcome := by
  have hsession := h.sessions []
  constructor
  · intro hempty i f hf
    have htracks := h.tracks (huntimed i) hf
    rcases htracks.cases hsession.sound.inv with ⟨_, hslot⟩ | ⟨outcome, hdone, _⟩
    · have hnone : (abs w.dispatcher).slot (calls i).actionId = none := by
        rw [abs_slot_none, hempty]
        rfl
      rw [hnone] at hslot
      cases hslot
    · exact ⟨outcome, hdone⟩
  · intro hfinished
    refine eq_empty_of_lookup fun a => abs_slot_none.mp ?_
    cases hslot : (abs w.dispatcher).slot a with
    | none => rfl
    | some fp =>
        exfalso
        obtain ⟨i, rfl, hf | ⟨err, hthrew⟩⟩ := hsession.owned a fp.1 fp.2 hslot
        · obtain ⟨outcome, hdone⟩ := hfinished i fp.1 hf
          have htracks := h.tracks (huntimed i) hf
          rw [hdone] at htracks
          have hpending := hsession.sound.inv.pending _ _ _ hslot
          rw [htracks.1] at hpending
          exact htracks.2 (Option.some.inj hpending)
        · exact h.unthrown i err hthrew

end

variable {ι : Type} [DecidableEq ι]

/--
**When a connection has gone away, no call is left waiting.**

Untimed calls with distinct ActionIDs whose writes succeed, and a server whose messages with
a call's ActionID are complete only after the call has written. When `~Connection` has joined
both workers, then without assertions `~EventDispatcher` completes, and every call that waits
has its turn: it returns the response that is complete in what was read, and `nullptr` if
there is none. With assertions it completes exactly when no call that has begun is without
its response.
-/
theorem closed_outcomes (calls : ι → Call) (huntimed : ∀ i, (calls i).timeout = none)
    (hinj : ∀ i j, (calls i).actionId = (calls j).actionId → i = j) (sockFd : Int)
    {labels : List (Connection.Label ι)} {c : Connection ι}
    (hanswer : Run.Along (Connection.step calls) (Connection.Answering calls) (connected sockFd)
      labels)
    (hrun : Connection.runLabels calls sockFd labels = .ok c) (hclosed : c.pipeline.Closed) :
    (∃ d, c.dispatcher.destroy false = .ok d
        ∧ ∀ i f, c.pc i = .getting f →
          ∃ r c', Connection.step calls { c with dispatcher := d } (.invoke (.get i)) = .ok c'
            ∧ c'.pc i = .returned r
            ∧ ∀ reaction, r = some reaction ↔ Completes (c.answersTo calls i) reaction)
      ∧ ((∃ d, c.dispatcher.destroy true = .ok d)
        ↔ ∀ i f, (c.pc i).future = some f →
          ∃ reaction, Completes (c.answersTo calls i) reaction) := by
  obtain ⟨w, hstands, hagrees⟩ := run_agrees huntimed hinj hanswer hrun
  have hw := hstands.stands
  have hsound := (hagrees.sessions []).sound
  have hanswers : ∀ i, (c.dispatched.filter fun m => m.actionId = some (calls i).actionId)
      = c.answersTo calls i := by
    intro i
    rw [(run_dispatched hrun hclosed).2]
    rfl
  have hids : ∀ i, ∀ m ∈ c.answersTo calls i, m.actionId = some (calls i).actionId := by
    intro i m hm
    exact of_decide_eq_true (List.mem_filter.mp hm).2
  have hresponse : ∀ i f, (c.pc i).future = some f →
      w.response calls i = progressOf ((c.answersTo calls i).map .message) := by
    intro i f hf
    rw [← hw.pc] at hf
    rw [hagrees.response_dispatched hw hf, hanswers]
  refine ⟨?_, ?_⟩
  · have hwf := hsound.wf
    rw [hw.dispatcher] at hwf
    obtain ⟨d, hd, hafter⟩ := destroy_completes hwf
    refine ⟨d, hd, ?_⟩
    intro i f hpc
    have hf : (c.pc i).future = some f := by
      rw [hpc]
      rfl
    have htracks := hagrees.tracks (huntimed i) (by rw [hw.pc]; exact hf)
    rw [hresponse i f hf, hw.dispatcher] at htracks
    have hsound' : Sound c.dispatcher := by
      rw [← hw.dispatcher]
      exact hsound
    obtain ⟨r, hr, hcomp⟩ := teardown_result hsound' (hids i) htracks (hafter f)
    have hturn : ∃ c', Connection.step calls { c with dispatcher := d } (.invoke (.get i)) = .ok c'
        ∧ c'.pc i = .returned r := get_returns hpc hr
    obtain ⟨c', hstep, hc'⟩ := hturn
    exact ⟨r, c', hstep, hc', hcomp⟩
  · rw [destroy_asserts (by rw [← hw.dispatcher]; exact hsound.wf), ← hw.dispatcher,
      hagrees.no_pipe_iff huntimed, hw.pc]
    refine forall_congr' fun i => forall_congr' fun f => ?_
    refine forall_congr' fun hf => ?_
    rw [hresponse i f hf]
    constructor
    · rintro ⟨outcome, hdone⟩
      rcases gathered_or_completes (hids i) with ⟨hun, _⟩ | ⟨reaction, _, hcomp⟩
      · rw [hdone] at hun
        exact hun.elim
      · exact ⟨reaction, hcomp⟩
    · rintro ⟨reaction, hcomp⟩
      exact ⟨_, progressOf_completes hcomp⟩

/-! ## A call without an answer -/

namespace Sample

/-- The joins of `~Connection` while both workers are at the top of their loops. -/
def unanswered : List (Connection.Label Unit) :=
  [.invoke (.getEventPipe ()), .invoke (.write ()), .reader .stop, .joinReader,
    .streamParser .store, .streamParser .notify, .streamParser .check, .streamParser .lock,
    .streamParser .finish, .streamParser .join, .dispatcher .store, .dispatcher .notify,
    .dispatcher .check, .dispatcher .lock, .dispatcher .finish, .dispatcher .join]

end Sample

/-- A call that nothing answers returns `nullptr`, and fails the assertion. -/
theorem closed_outcomes_unanswered :
    ∃ c d c', Connection.runLabels (fun _ => { action := Sample.ping "7" }) 3 Sample.unanswered
        = .ok c
      ∧ c.dispatcher.destroy false = .ok d
      ∧ Connection.step (fun _ => { action := Sample.ping "7" }) { c with dispatcher := d }
        (.invoke (.get ())) = .ok c'
      ∧ c'.pc () = .returned none
      ∧ ¬ ∃ d, c.dispatcher.destroy true = .ok d := by
  have hrun : ∃ c, Connection.runLabels (fun _ => { action := Sample.ping "7" }) 3
      Sample.unanswered = .ok c ∧ c.pipeline.Closed ∧ c.pc () = .getting 0
      ∧ c.answersTo (fun _ => { action := Sample.ping "7" }) () = [] := ⟨_, rfl, rfl, rfl, rfl⟩
  obtain ⟨c, hrun, hclosed, hpc, hnone⟩ := hrun
  have hanswer : Run.Along (Connection.step fun _ => { action := Sample.ping "7" })
      (Connection.Answering fun _ => { action := Sample.ping "7" }) (connected 3)
      Sample.unanswered := by
    iterate 16 refine (Run.along_cons rfl).mpr ⟨trivial, ?_⟩
    trivial
  have hno : ∀ reaction,
      ¬ Completes (c.answersTo (fun _ => { action := Sample.ping "7" }) ()) reaction := by
    intro reaction hcomp
    rw [hnone] at hcomp
    have hdone := progressOf_completes hcomp
    cases hdone
  obtain ⟨⟨d, hd, hgets⟩, hasserts⟩ :=
    closed_outcomes _ (fun _ => rfl) (fun _ _ _ => rfl) 3 hanswer hrun hclosed
  obtain ⟨r, c', hstep, hc', hr⟩ := hgets () 0 hpc
  cases r with
  | some reaction => exact absurd ((hr reaction).mp rfl) (hno reaction)
  | none =>
      refine ⟨c, d, c', hrun, hd, hstep, hc', ?_⟩
      intro hok
      obtain ⟨reaction, hcomp⟩ := hasserts.mp hok () 0 (by rw [hpc]; rfl)
      exact hno reaction hcomp

end CppAmi.Proof
