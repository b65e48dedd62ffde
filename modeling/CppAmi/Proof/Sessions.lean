import CppAmi.Proof.Turns

/-!
# An invocation follows its own response

`Follows` relates a call to the response it has heard: while it is in progress its pipe
stands for that response, or for the timeout it stored itself, and what it returned or
threw in the end is one or the other. This is kept by every turn as long as no two
calls with one ActionID are in progress together (`session_run`).

An open pipe always belongs to somebody (`Owned`): to a call in progress, or to one
whose write threw.
-/

namespace CppAmi.Proof

open CppAmi EventDispatcher World

variable {ι : Type} [DecidableEq ι]

/-! ## Who an open pipe belongs to -/

/-- An open pipe belongs to a call in progress, or was left behind by a write that threw. -/
def Owned (calls : ι → Call) (w : World ι) : Prop :=
  ∀ a f p, (abs w.dispatcher).slot a = some (f, p) →
    ∃ i, (calls i).actionId = a ∧ ((w.pc i).future = some f ∨ ∃ err, w.pc i = .writeThrew err)

section Turns

variable {calls : ι → Call} {w w' : World ι} {l : Label ι}

/-- A call in progress keeps its future until its write throws or it has its result. -/
theorem Turn.future (h : Turn calls w l w') {i : ι} {f : Nat} (hf : (w.pc i).future = some f) :
    (w'.pc i).future = some f ∨ (∃ err, w'.pc i = .writeThrew err)
      ∨ w.dispatcher.shared[f]? ≠ some .pending := by
  by_cases hi : l.caller = some i
  · have hadv := h.advance hi
    generalize w.pc i = pc at hadv hf
    generalize w'.pc i = pc' at hadv
    cases hadv with
    | getEventPipe => cases hf
    | write hnext =>
        cases hf
        rcases hnext with rfl | rfl
        · exact Or.inl rfl
        · exact Or.inl rfl
    | writeThrows => exact Or.inr (Or.inl ⟨_, rfl⟩)
    | waitReady hready =>
        cases hf
        exact Or.inr (Or.inr hready)
    | waitTimeout => exact Or.inl hf
    | setExceptionOnPipe => exact Or.inl hf
    | returned hvalue =>
        cases hf
        exact Or.inr (Or.inr (by simp [hvalue]))
    | threw herr =>
        cases hf
        exact Or.inr (Or.inr (by simp [herr]))
  · rw [(h.other hi).1]
    exact Or.inl hf

/-- The call whose turn it is has not ended. -/
theorem Turn.caller_open (h : Turn calls w l w') {i : ι} (hi : l.caller = some i) :
    l = .getEventPipe i ∧ w.pc i = .start ∨ ∃ f, (w.pc i).future = some f := by
  have hadv := h.advance hi
  generalize w.pc i = pc at hadv
  generalize w'.pc i = pc' at hadv
  cases hadv with
  | getEventPipe => exact Or.inl ⟨rfl, rfl⟩
  | _ => exact Or.inr ⟨_, rfl⟩

/-- A call that has taken a turn is not at its start. -/
theorem Turn.not_start (h : Turn calls w l w') {i : ι} (hi : l.caller = some i) :
    w'.pc i ≠ .start := by
  intro hs
  have hadv := h.advance hi
  rw [hs] at hadv
  generalize w.pc i = pc at hadv
  cases hadv with
  | write hnext => rcases hnext with hn | hn <;> cases hn

/-- A call whose turn it is either registers, or has registered before. -/
theorem Turn.started (h : Turn calls w l w') {i : ι} (hl : l ≠ .getEventPipe i)
    (hpc' : w'.pc i ≠ .start) : w.pc i ≠ .start ∧ w'.mark i = w.mark i := by
  refine ⟨?_, h.mark hl⟩
  intro hs
  by_cases hi : l.caller = some i
  · rcases h.caller_open hi with ⟨heq, _⟩ | ⟨f, hf⟩
    · exact hl heq
    · rw [hs] at hf
      cases hf
  · rw [(h.other hi).1] at hpc'
    exact hpc' hs

/-- A write throws in one turn only. -/
theorem Turn.writeThrew_origin (h : Turn calls w l w') {i : ι} (hi : l.caller = some i) {err : Exn}
    (hpc' : w'.pc i = .writeThrew err) : ∃ what, l = .writeThrows i what := by
  have hadv := h.advance hi
  rw [hpc'] at hadv
  generalize w.pc i = pc at hadv
  cases hadv with
  | write hnext => rcases hnext with hn | hn <;> cases hn
  | writeThrows => exact ⟨_, rfl⟩

theorem Turn.writeThrew (h : Turn calls w l w') {i : ι} {err : Exn}
    (hpc : w.pc i = .writeThrew err) : w'.pc i = .writeThrew err := by
  have hi : l.caller ≠ some i := by
    intro hi
    rcases h.caller_open hi with ⟨_, hs⟩ | ⟨f, hf⟩
    · rw [hpc] at hs
      cases hs
    · rw [hpc] at hf
      cases hf
  rw [(h.other hi).1, hpc]

theorem owned_turn (hs : Sound w.dispatcher) (h : Owned calls w) (ht : Turn calls w l w') :
    Owned calls w' := by
  -- a pipe that was open and still is has the owner it had
  have hold : ∀ a f p, (abs w.dispatcher).slot a = some (f, p) →
      ∃ i, (calls i).actionId = a
        ∧ ((w'.pc i).future = some f ∨ ∃ err, w'.pc i = .writeThrew err) := by
    intro a f p hslot
    obtain ⟨i, hi, howner⟩ := h a f p hslot
    refine ⟨i, hi, ?_⟩
    rcases howner with hf | ⟨err, hpc⟩
    · rcases ht.future hf with hkeep | hthrew | hdone
      · exact Or.inl hkeep
      · exact Or.inr hthrew
      · exact absurd (hs.inv.pending a f p hslot) hdone
    · exact Or.inr ⟨err, ht.writeThrew hpc⟩
  intro a f p hslot
  rcases ht.dispatcher with ⟨_, hd⟩ | ⟨op, hop, hd⟩
  · rw [hd] at hslot
    exact hold a f p hslot
  · rcases slot_origin hs.inv (hs.step hd).2 hslot with ⟨q, hq⟩ | ⟨rfl, rfl⟩
    · exact hold a f q hq
    · obtain ⟨i, rfl, hi⟩ := opOf_getEventPipe hop
      refine ⟨i, hi, Or.inl ?_⟩
      cases ht with
      | getEventPipe hpc hd' =>
          simp only [goto, Function.update_self, getEventPipe_future]
          rfl

/-! ## What a call has heard -/

/-- The message a turn has for an ActionID, the first in flight if it names it. -/
def heardNow (w : World ι) (a : Bytes) : Label ι → Option (Option ι × Event)
  | .dispatch => w.inFlight.head?.filter fun sm => sm.2.actionId = some a
  | _ => none

omit [DecidableEq ι] in
theorem heardNow_dispatch {a : Bytes} {sm : Option ι × Event}
    (h : heardNow w a l = some sm) : sm ∈ w.inFlight := by
  cases l with
  | dispatch => exact List.mem_of_mem_head? (Option.mem_filter_iff.mp h).1
  | _ => cases h

omit [DecidableEq ι] in
theorem heardNow_none {a : Bytes} (hl : l ≠ .dispatch) : heardNow w a l = none := by
  cases l with
  | dispatch => exact absurd rfl hl
  | _ => rfl

/-- A turn adds its message to what was heard under an ActionID, from any mark on. -/
theorem Turn.heardSince (h : Turn calls w l w') (a : Bytes) {since : Nat}
    (hle : since ≤ w.delivered.length) :
    w'.heardSince a since = w.heardSince a since ++ (heardNow w a l).toList := by
  rw [World.heardSince, World.heardSince]
  rcases h.flow with ⟨hl, _, hsame⟩ | ⟨source, m, rfl, _, hsame⟩ | ⟨sm, rfl, hhead, hmore⟩
  · rw [hsame, heardNow_none hl, Option.toList_none, List.append_nil]
  · rw [hsame, heardNow_none (by simp), Option.toList_none, List.append_nil]
  · rw [hmore, List.drop_append_of_le_length hle, List.filter_append, heardNow, hhead]
    by_cases hm : sm.2.actionId = some a
    · simp [Option.filter_some, hm]
    · simp [Option.filter_some, hm]

/-- A call's response moves by the messages it hears. -/
theorem Turn.response (h : Turn calls w l w') {i : ι} (hmark : w'.mark i = w.mark i)
    (hle : w.mark i ≤ w.delivered.length) :
    w'.response calls i
      = ((heardNow w (calls i).actionId l).map fun sm => .message sm.2).elim
        (w.response calls i) (w.response calls i).step := by
  unfold World.response
  rw [heard, heard, hmark, h.heardSince _ hle]
  cases heardNow w (calls i).actionId l with
  | none => simp
  | some sm => simp [progressOf_snoc]

omit [DecidableEq ι] in
/-- Of an operation of the dispatcher a pipe sees the message, unless some call stores a timeout
under its ActionID. -/
theorem opOf_onPipe {a : Bytes} (hclose : ∀ j, l = .setExceptionOnPipe j → (calls j).actionId ≠ a) :
    (opOf calls w l).bind (Op.onPipe a) = (heardNow w a l).map fun sm => .message sm.2 := by
  cases l with
  | dispatch =>
      unfold opOf
      rw [heardNow]
      cases w.inFlight.head? with
      | none => rfl
      | some sm =>
          by_cases hm : sm.2.actionId = some a
          · simp [Option.filter_some, Op.onPipe, hm]
          · simp [Option.filter_some, Op.onPipe, hm]
  | setExceptionOnPipe j => exact if_neg (hclose j rfl)
  | _ => rfl

theorem elim_done (outcome : Shared) (op : Option PipeOp) :
    op.elim (.done outcome) (Progress.done outcome).step = .done outcome := by
  cases op with
  | none => rfl
  | some op => exact done_step outcome op

/-! ## Following the response -/

/-- Where a call stands against the response it has heard. -/
def FollowsAt (calls : ι → Call) (w : World ι) (i : ι) : Pc → Prop
  | .start | .writeThrew _ => True
  | .registered f => Tracks (abs w.dispatcher) (calls i).actionId f (w.response calls i)
  | .waiting f =>
    (calls i).timeout.isSome
      ∧ Tracks (abs w.dispatcher) (calls i).actionId f (w.response calls i)
  | .timedOut f =>
    (calls i).timeout.isSome ∧ w.elapsed i = true
      ∧ Tracks (abs w.dispatcher) (calls i).actionId f (w.response calls i)
  | .getting f =>
    (Tracks (abs w.dispatcher) (calls i).actionId f (w.response calls i)
        ∨ ((calls i).timeout.isSome ∧ w.elapsed i = true
          ∧ Tracks (abs w.dispatcher) (calls i).actionId f
            (.done (.exception (timeoutError (calls i).actionId)))))
      ∧ ((calls i).timeout.isSome → w.dispatcher.shared[f]? ≠ some .pending)
  | .returned r => w.response calls i = .done (.value r)
  | .threw err =>
    err = timeoutError (calls i).actionId ∧ (calls i).timeout.isSome ∧ w.elapsed i = true

def Follows (calls : ι → Call) (w : World ι) (i : ι) : Prop := FollowsAt calls w i (w.pc i)

/-- A pipe with a result stands for a finished response. -/
theorem Tracks.done_of_shared {r : Router} (h : RouterInv r) {a : Bytes} {f : Nat} {p : Progress}
    (ht : Tracks r a f p) (hne : r.shared[f]? ≠ some .pending) : ∃ outcome, p = .done outcome := by
  rcases ht.cases h with ⟨_, hslot⟩ | ⟨outcome, hp, _⟩
  · exact absurd (h.pending a f p hslot) hne
  · exact ⟨outcome, hp⟩

/-- A result that is there stays. -/
theorem Turn.result_stays (hs : Sound w.dispatcher) (ht : Turn calls w l w') {a : Bytes} {f : Nat}
    {p : Progress} (htr : Tracks (abs w.dispatcher) a f p)
    (hready : w.dispatcher.shared[f]? ≠ some .pending) :
    w'.dispatcher.shared[f]? ≠ some .pending := by
  obtain ⟨outcome, rfl⟩ := htr.done_of_shared hs.inv hready
  have hthere := ht.tracks hs htr
  rw [elim_done] at hthere
  rw [← abs_shared, hthere.1]
  exact fun heq => hthere.2 (Option.some.inj heq)

/-- Turns of other calls keep a call in step with its response. -/
theorem follows_other (hs : Sound w.dispatcher) {i : ι} (hle : w.mark i ≤ w.delivered.length)
    (hf : Follows calls w i) (ht : Turn calls w l w') (hi : l.caller ≠ some i)
    (hclose : (w.pc i).future ≠ none →
      ∀ j, l = .setExceptionOnPipe j → (calls j).actionId ≠ (calls i).actionId) :
    Follows calls w' i := by
  obtain ⟨hpc, hmark, helapsed⟩ := ht.other hi
  have hresp := ht.response hmark hle
  have hdone : ∀ outcome, w.response calls i = .done outcome →
      w'.response calls i = .done outcome := by
    intro outcome ho
    rw [hresp, ho, elim_done]
  have hcarry : ∀ f, (w.pc i).future = some f →
      Tracks (abs w.dispatcher) (calls i).actionId f (w.response calls i) →
      Tracks (abs w'.dispatcher) (calls i).actionId f (w'.response calls i) := by
    intro f hfut htr
    have hop : (opOf calls w l).bind (Op.onPipe (calls i).actionId) = _ :=
      opOf_onPipe (hclose (by rw [hfut]; simp))
    rw [hresp, ← hop]
    exact ht.tracks hs htr
  have hstay : ∀ f outcome, Tracks (abs w.dispatcher) (calls i).actionId f (.done outcome) →
      Tracks (abs w'.dispatcher) (calls i).actionId f (.done outcome) := by
    intro f outcome htr
    rw [← elim_done outcome ((opOf calls w l).bind (Op.onPipe (calls i).actionId))]
    exact ht.tracks hs htr
  unfold Follows
  rw [hpc]
  unfold Follows at hf
  cases hp : w.pc i with
  | start => trivial
  | writeThrew err => trivial
  | registered f =>
      rw [hp] at hf
      exact hcarry f (by rw [hp]; rfl) hf
  | waiting f =>
      rw [hp] at hf
      exact ⟨hf.1, hcarry f (by rw [hp]; rfl) hf.2⟩
  | timedOut f =>
      rw [hp] at hf
      exact ⟨hf.1, by rw [helapsed]; exact hf.2.1, hcarry f (by rw [hp]; rfl) hf.2.2⟩
  | getting f =>
      rw [hp] at hf
      obtain ⟨hpipe, hready⟩ := hf
      refine ⟨?_, ?_⟩
      · rcases hpipe with htr | ⟨htimed, hel, htr⟩
        · exact Or.inl (hcarry f (by rw [hp]; rfl) htr)
        · exact Or.inr ⟨htimed, by rw [helapsed]; exact hel, hstay f _ htr⟩
      · intro htimed
        rcases hpipe with htr | ⟨_, _, htr⟩
        · exact ht.result_stays hs htr (hready htimed)
        · exact ht.result_stays hs htr (hready htimed)
  | returned r =>
      rw [hp] at hf
      exact hdone _ hf
  | threw err =>
      rw [hp] at hf
      exact ⟨hf.1, hf.2.1, by rw [helapsed]; exact hf.2.2⟩

/-- An exception in a response was stored there, not heard. -/
theorem messages_no_exception (ms : List Event) (err : Exn) :
    (progressOf (ms.map .message)).outcome ≠ .exception err := by
  intro h
  rcases foldl_exception h with hinit | hmem
  · cases hinit
  · obtain ⟨m, _, hm⟩ := List.mem_map.mp hmem
    cases hm

omit [DecidableEq ι] in
theorem follows_of_pc {i : ι} {pc : Pc} (hpc : w.pc i = pc) (h : FollowsAt calls w i pc) :
    Follows calls w i := by
  unfold Follows
  rw [hpc]
  exact h

omit [DecidableEq ι] in
/-- What a call has heard is finished by a reaction, made of the first messages it heard. -/
theorem response_done {i : ι} {outcome : Shared} (h : w.response calls i = .done outcome) :
    ∃ reaction, outcome = .value (some reaction)
      ∧ Completes ((w.heard calls i).map Prod.snd) reaction := by
  have hids : ∀ m ∈ (w.heard calls i).map Prod.snd, m.actionId = some (calls i).actionId := by
    intro m hm
    obtain ⟨sm, hsm, rfl⟩ := List.mem_map.mp hm
    exact of_decide_eq_true (List.mem_filter.mp hsm).2
  unfold World.response at h
  rcases gathered_or_completes hids with ⟨hun, _⟩ | ⟨reaction, hdone, hcomp⟩
  · rw [h] at hun
    exact hun.elim
  · rw [hdone] at h
    cases h
    exact ⟨reaction, rfl, hcomp⟩

/-- The exception of a timeout is stored, unless the response is already complete. -/
theorem follows_setException (hs : Sound w.dispatcher) {i : ι} {f : Nat} {d : EventDispatcher}
    (hf : FollowsAt calls w i (.timedOut f))
    (hd : w.dispatcher.apply (.setExceptionOnPipe (calls i).actionId
      (timeoutError (calls i).actionId)) = .ok d) :
    FollowsAt calls { w.goto i (.getting f) with dispatcher := d } i (.getting f) := by
  obtain ⟨htimed, hel, htr⟩ := hf
  obtain ⟨hs', hmove⟩ := hs.step hd
  have hpipe := tracks_move hs.inv hmove htr
  rw [onPipe_closes rfl, if_pos rfl, Option.elim_some] at hpipe
  rcases htr.cases hs.inv with ⟨hun, _⟩ | ⟨outcome, hp, _⟩
  · -- the response was still unfinished, so it is the timeout that is stored
    have hclosed := hun.close (.exception (timeoutError (calls i).actionId))
    rw [Progress.step, hclosed] at hpipe
    refine ⟨Or.inr ⟨htimed, hel, hpipe⟩, ?_⟩
    intro _ heq
    have hthere := hpipe.1
    rw [abs_shared, heq] at hthere
    cases hthere
  · -- the response was complete, and stays
    rw [hp, done_step] at hpipe
    refine ⟨Or.inl ?_, ?_⟩
    · show Tracks (abs d) (calls i).actionId f (w.response calls i)
      rw [hp]
      exact hpipe
    · intro _ heq
      have hthere := hpipe.1
      rw [abs_shared, heq] at hthere
      exact hpipe.2 (Option.some.inj hthere).symm

/-- A call's own turns keep it in step with its response. -/
theorem follows_own (hs : Sound w.dispatcher) {i : ι} (hf : Follows calls w i)
    (ht : Turn calls w l w') (hi : l.caller = some i)
    (hfree : l = .getEventPipe i → (calls i).actionId ∉ w.dispatcher.promiseMap) :
    Follows calls w' i := by
  unfold Follows at hf
  cases ht with
  | @getEventPipe j d hpc hd =>
      cases hi
      obtain ⟨d', hstep, _, htr⟩ := tracks_opened (hfree rfl) hs
      rw [hd] at hstep
      cases hstep
      -- nothing has been heard yet
      have hresp : World.response calls
          { w.goto i (.registered (w.dispatcher.getEventPipe (calls i).actionId).2) with
            dispatcher := d, mark := Function.update w.mark i w.delivered.length } i
          = .waiting := by
        simp [World.response, heard, World.heardSince, goto, progressOf]
      refine follows_of_pc (Function.update_self _ _ _) ?_
      unfold FollowsAt
      rw [hresp]
      exact htr
  | @write j f hpc =>
      cases hi
      rw [hpc] at hf
      refine follows_of_pc (Function.update_self _ _ _) ?_
      by_cases htimed : (calls i).timeout.isSome
      · rw [if_pos htimed]
        exact ⟨htimed, hf⟩
      · rw [if_neg htimed]
        exact ⟨Or.inl hf, fun h => absurd h htimed⟩
  | @writeThrows j f what hpc =>
      cases hi
      refine follows_of_pc (Function.update_self _ _ _) ?_
      trivial
  | @waitReady j f hpc hready =>
      cases hi
      rw [hpc] at hf
      refine follows_of_pc (Function.update_self _ _ _) ?_
      exact ⟨Or.inl hf.2, fun _ => hready⟩
  | @waitTimeout j f hpc hpend =>
      cases hi
      rw [hpc] at hf
      refine follows_of_pc (Function.update_self _ _ _) ?_
      exact ⟨hf.1, Function.update_self _ _ _, hf.2⟩
  | @setExceptionOnPipe j f d hpc hd =>
      cases hi
      rw [hpc] at hf
      exact follows_of_pc (Function.update_self _ _ _) (follows_setException hs hf hd)
  | @returned j f reaction hpc hvalue =>
      cases hi
      rw [hpc] at hf
      refine follows_of_pc (Function.update_self _ _ _) ?_
      rcases hf.1 with htr | ⟨_, _, htr⟩
      · obtain ⟨outcome, hp⟩ := htr.done_of_shared hs.inv (by rw [abs_shared, hvalue]; simp)
        have houtcome := htr.outcome_eq hs.inv hvalue
        rw [hp] at houtcome
        show w.response calls i = .done (.value reaction)
        rw [hp, ← houtcome]
        rfl
      · have hthere := htr.1
        rw [abs_shared, hvalue] at hthere
        cases hthere
  | @threw j f err hpc herr =>
      cases hi
      rw [hpc] at hf
      refine follows_of_pc (Function.update_self _ _ _) ?_
      rcases hf.1 with htr | ⟨htimed, hel, htr⟩
      · exact absurd (htr.outcome_eq hs.inv herr) (messages_no_exception _ err)
      · have hthere := htr.1
        rw [abs_shared, herr] at hthere
        cases hthere
        exact ⟨rfl, htimed, hel⟩
  | emit => cases hi
  | dispatch hhead hd => cases hi

end Turns

/-! ## Sessions -/

theorem marks_turn {calls : ι → Call} {w w' : World ι} {l : Label ι}
    (h : ∀ i, w.mark i ≤ w.delivered.length) (ht : Turn calls w l w') (i : ι) :
    w'.mark i ≤ w'.delivered.length := by
  by_cases hl : l = .getEventPipe i
  · subst hl
    cases ht with
    | getEventPipe hpc hd => exact Nat.le_of_eq (Function.update_self _ _ _)
  · rw [ht.mark hl]
    have hi := h i
    rcases ht.flow with ⟨_, _, hsame⟩ | ⟨_, _, _, _, hsame⟩ | ⟨sm, _, _, hmore⟩
    · rwa [hsame]
    · rwa [hsame]
    · rw [hmore, List.length_append]
      omega

/-- What holds under an ActionID that is used by one call at a time. -/
structure Session (calls : ι → Call) (a : Bytes) (w : World ι) : Prop where
  sound : Sound w.dispatcher
  owned : Owned calls w
  marks : ∀ i, w.mark i ≤ w.delivered.length
  /-- Of two calls with the ActionID one is retired. -/
  solo : ∀ i j, (calls i).actionId = a → (calls j).actionId = a → i ≠ j →
    (w.pc i).Retired ∨ (w.pc j).Retired
  follows : ∀ i, (calls i).actionId = a → Follows calls w i

omit [DecidableEq ι] in
theorem session_init (calls : ι → Call) (a : Bytes) : Session calls a {} where
  sound := sound_init
  owned := by
    intro b f p hslot
    exact absurd hslot (by simp [abs])
  marks := fun i => Nat.le_refl 0
  solo := fun i j _ _ _ => Or.inl trivial
  follows := fun i _ => trivial

omit [DecidableEq ι] in
/-- An ActionID that only one call uses is not registered too early. -/
theorem sequential_of_alone {calls : ι → Call} {a : Bytes}
    (halone : ∀ i j, (calls i).actionId = a → (calls j).actionId = a → j = i) (w : World ι)
    (l : Label ι) : Sequential calls a w l := by
  cases l with
  | getEventPipe i =>
      intro hi j hj hne
      exact absurd (halone i j hi hj) hne
  | _ => trivial

theorem retired_future {pc : Pc} (h : pc.Retired) : pc.future = none := by
  cases pc <;> first | rfl | exact h.elim

theorem retired_ne_writeThrew {pc : Pc} (h : pc.Retired) (err : Exn) :
    pc ≠ .writeThrew err := by
  intro heq
  subst heq
  exact h

omit [DecidableEq ι] in
theorem Owned.free {calls : ι → Call} {w : World ι} (h : Owned calls w) {a : Bytes}
    (hretired : ∀ i, (calls i).actionId = a → (w.pc i).Retired) : a ∉ w.dispatcher.promiseMap := by
  rw [← abs_slot_none_iff]
  cases hslot : (abs w.dispatcher).slot a with
  | none => rfl
  | some fp =>
      obtain ⟨i, hi, hf | ⟨err, herr⟩⟩ := h a fp.1 fp.2 hslot
      · rw [retired_future (hretired i hi)] at hf
        cases hf
      · exact absurd herr (retired_ne_writeThrew (hretired i hi) err)

section Session

variable {calls : ι → Call} {a : Bytes} {w w' : World ι} {l : Label ι}

/-- While a call takes its turn the others with its ActionID are retired. -/
theorem Session.retired (h : Session calls a w) (hseq : Sequential calls a w l)
    (ht : Turn calls w l w') {i j : ι} (hi : (calls i).actionId = a) (hj : (calls j).actionId = a)
    (hne : j ≠ i) (hl : l.caller = some i) : (w.pc j).Retired := by
  rcases ht.caller_open hl with ⟨rfl, _⟩ | ⟨f, hf⟩
  · exact hseq hi j hj hne
  · rcases h.solo i j hi hj (Ne.symm hne) with hret | hret
    · rw [retired_future hret] at hf
      cases hf
    · exact hret

/-- **A session is kept by every turn that does not register its ActionID too early.** -/
theorem session_turn (h : Session calls a w) (hseq : Sequential calls a w l)
    (ht : Turn calls w l w') : Session calls a w' := by
  have hsolo : ∀ i j, (calls i).actionId = a → (calls j).actionId = a → i ≠ j →
      l.caller = some i → (w'.pc j).Retired := by
    intro i j hi hj hne hl
    rw [(ht.other (fun heq => hne (Option.some.inj (hl.symm.trans heq)))).1]
    exact h.retired hseq ht hi hj (Ne.symm hne) hl
  refine ⟨ht.sound h.sound, owned_turn h.sound h.owned ht, marks_turn h.marks ht, ?_, ?_⟩
  · intro i j hi hj hne
    by_cases hli : l.caller = some i
    · exact Or.inr (hsolo i j hi hj hne hli)
    · by_cases hlj : l.caller = some j
      · exact Or.inl (hsolo j i hj hi (Ne.symm hne) hlj)
      · rw [(ht.other hli).1, (ht.other hlj).1]
        exact h.solo i j hi hj hne
  · intro i hi
    by_cases hl : l.caller = some i
    · refine follows_own h.sound (h.follows i hi) ht hl ?_
      intro hreg
      -- at the registration every call with the ActionID is retired
      rw [hi]
      refine h.owned.free ?_
      intro j hj
      by_cases hji : j = i
      · rw [hreg] at ht
        rw [hji, ht.start_of_getEventPipe]
        trivial
      · exact h.retired hseq ht hi hj hji hl
    · refine follows_other h.sound (h.marks i) (h.follows i hi) ht hl ?_
      intro hopen j hlabel hj
      -- a call in progress has the ActionID to itself
      have hji : i ≠ j := by
        intro heq
        subst heq
        rw [hlabel] at hl
        exact hl rfl
      have hret := h.retired hseq ht (hj.trans hi) hi hji (by rw [hlabel]; rfl)
      exact hopen (retired_future hret)

theorem session_run (hs : Session calls a w) {labels : List (Label ι)}
    (hseq : Run.Along (step calls) (Sequential calls a) w labels)
    (hrun : Run.run (step calls) w labels = .ok w') : Session calls a w' :=
  Run.invariant (fun _ _ _ h hs hstep => session_turn h hs (step_turn hstep)) hs hseq hrun

end Session

namespace Sample

/-- An action without fields of its own. -/
def ping (actionId : String) : Action :=
  { orderedKeys := [], values := ∅, action := ascii "Ping", actionId := ascii actionId }

end Sample

end CppAmi.Proof
