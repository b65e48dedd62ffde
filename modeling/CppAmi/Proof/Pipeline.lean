import CppAmi.Model.Pipeline
import CppAmi.Proof.ParseSafe
import CppAmi.Proof.Workers

/-!
# The receive pipeline loses nothing and keeps the order

The pipeline is two workers in series, and `~Connection` stops each only when nothing
can be added to it any more. So what the first makes of the chunks is what one
sequential parser makes of them, and what the second passes to `dispatch_event` is what
the first has dispatched (`pipeline_fifo`).
-/

namespace CppAmi.Proof

open CppAmi Worker StreamParser

/-! ## What the parser has dispatched stays dispatched -/

theorem dispatchLoop_extends (fuel : Nat) {p p' : StreamParser} {eomLoc : Option Nat}
    (h : dispatchLoop fuel p eomLoc = .ok p') : p.dispatched <+: p'.dispatched := by
  induction fuel generalizing p eomLoc with
  | zero => cases h
  | succ fuel ih =>
      cases eomLoc with
      | none =>
          cases h
          exact List.prefix_refl _
      | some loc =>
          simp only [dispatchLoop, substr_zero, erase_zero, bind, Except.bind] at h
          split at h
          · cases h
            exact List.prefix_append _ _
          · exact (List.prefix_append _ _).trans (ih h)

theorem parseEvents_extends {p p' : StreamParser} {chunk : Bytes}
    (h : parseEvents p chunk = .ok p') : p.dispatched <+: p'.dispatched := by
  unfold parseEvents at h
  split at h
  · exact dispatchLoop_extends (p := { p with eventBuf := chunk }) _ h
  · exact dispatchLoop_extends (p := { p with eventBuf := p.eventBuf ++ chunk }) _ h

theorem processChunk_extends {p p' : StreamParser} {chunk : Bytes}
    (h : processChunk p chunk = .ok p') : p.dispatched <+: p'.dispatched := by
  unfold processChunk at h
  split at h
  · obtain ⟨version, _, hrest⟩ := Run.bind_eq_ok h
    simp only [erase_zero] at hrest
    split at hrest
    · cases hrest
      exact List.prefix_refl _
    · exact parseEvents_extends
        (p := { p with firstEvent := false, versions := p.versions ++ [version] }) hrest
  · exact parseEvents_extends h

/-- So what it has dispatched so far begins what it dispatches in the end. -/
theorem processChunks_extends {p p' : StreamParser} {chunks : List Bytes}
    (h : Run.run processChunk p chunks = .ok p') : p.dispatched <+: p'.dispatched :=
  Run.invariant_of_step
    (fun q _ _ (hpre : p.dispatched <+: q.dispatched) hstep =>
      hpre.trans (processChunk_extends hstep))
    (List.prefix_refl _) h

theorem object_extends {w w' : Worker Bytes StreamParser} {act : Act}
    (hstep : Worker.step processChunk w (.act act) = .ok w') :
    w.object.dispatched <+: w'.object.dispatched := by
  rcases object_act hstep with hobject | ⟨_, chunk, hwork⟩
  · rw [hobject]
  · exact processChunk_extends hwork

/-! ## The two in series -/

/-- What `EventDispatcher.threadStep` does with a buffer. -/
abbrev record (passed : List Bytes) (eventBuf : Bytes) : Except Fault (List Bytes) :=
  .ok (passed ++ [eventBuf])

theorem run_record (passed bufs : List Bytes) :
    Run.run record passed bufs = .ok (passed ++ bufs) := by
  induction bufs generalizing passed with
  | nil => simp
  | cons buf bufs ih =>
      have hrecord : record passed buf = .ok (passed ++ [buf]) := rfl
      rw [Run.run_cons hrecord, ih, List.append_assoc]
      rfl

/-- Everything one turn of the pipeline can do. -/
inductive Flowed (c : Pipeline) : Pipeline.Label → Pipeline → Prop where
  | read {buf : Bytes} {w : Worker Bytes StreamParser} (hread : c.readerJoined = false)
      (hadd : Worker.step processChunk c.streamParser (.add buf) = .ok w) :
      Flowed c (.addBuf buf) { c with received := c.received ++ [buf], streamParser := w }
  | readerJoined : Flowed c .joinReader { c with readerJoined := true }
  | parsed {act : Act} {w : Worker Bytes StreamParser} (hready : c.parserReady act = true)
      (hact : Worker.step processChunk c.streamParser (.act act) = .ok w) :
      Flowed c (.streamParser act) { c with streamParser := w }
  | forwarded {event : Bytes} {w : Worker Bytes (List Bytes)} (hout : c.outgoing = some event)
      (hadd : Worker.step record c.dispatcher (.add event) = .ok w) :
      Flowed c .addEvent { c with added := c.added + 1, dispatcher := w }
  | dispatched {act : Act} {w : Worker Bytes (List Bytes)}
      (hready : c.dispatcherReady act = true)
      (hact : Worker.step record c.dispatcher (.act act) = .ok w) :
      Flowed c (.dispatcher act) { c with dispatcher := w }

theorem step_flowed {c c' : Pipeline} {l : Pipeline.Label} (h : c.step l = .ok c') :
    Flowed c l c' := by
  cases l with
  | addBuf buf =>
      simp only [Pipeline.step] at h
      split at h
      · cases h
      · rename_i hread
        obtain ⟨w, hadd, hc⟩ := Run.bind_eq_ok h
        cases hc
        exact .read (Bool.eq_false_iff.mpr hread) hadd
  | joinReader =>
      simp only [Pipeline.step] at h
      split at h
      · cases h
      · cases h
        exact .readerJoined
  | streamParser act =>
      obtain ⟨hready, hturn⟩ := Run.ite_eq_ok h
      obtain ⟨w, hact, hc⟩ := Run.bind_eq_ok hturn
      cases hc
      exact .parsed hready hact
  | addEvent =>
      simp only [Pipeline.step] at h
      split at h
      · rename_i event hout
        obtain ⟨w, hadd, hc⟩ := Run.bind_eq_ok h
        cases hc
        exact .forwarded hout hadd
      · cases h
  | dispatcher act =>
      obtain ⟨hready, hturn⟩ := Run.ite_eq_ok h
      obtain ⟨w, hact, hc⟩ := Run.bind_eq_ok hturn
      cases hc
      exact .dispatched hready hact

/-- It fails where one of its workers does. -/
theorem step_fault {c : Pipeline} {l : Pipeline.Label} {f : Fault}
    (h : c.step l = .error (.fault f)) :
    (∃ l', Worker.step processChunk c.streamParser l' = .error (.fault f))
      ∨ ∃ l', Worker.step record c.dispatcher l' = .error (.fault f) := by
  cases l with
  | joinReader =>
      simp only [Pipeline.step] at h
      split at h <;> cases h
  | addBuf buf =>
      simp only [Pipeline.step] at h
      split at h
      · cases h
      · exact .inl ⟨_, Run.bind_eq_error h⟩
  | streamParser act =>
      obtain ⟨_, hturn⟩ := Run.ite_eq_error (by simp) h
      exact .inl ⟨_, Run.bind_eq_error hturn⟩
  | addEvent =>
      simp only [Pipeline.step] at h
      split at h
      · exact .inr ⟨_, Run.bind_eq_error h⟩
      · cases h
  | dispatcher act =>
      obtain ⟨_, hturn⟩ := Run.ite_eq_error (by simp) h
      exact .inr ⟨_, Run.bind_eq_error hturn⟩

/-- The invariant of the pipeline. -/
structure Fifo (c : Pipeline) : Prop where
  parser : Orderly c.streamParser
  dispatcher : Orderly c.dispatcher
  /-- The parser is stopped behind the reader. -/
  reader : c.streamParser.stopper ≠ .running → c.readerJoined = true
  /-- The dispatcher is stopped behind the parser. -/
  order : c.dispatcher.stopper ≠ .running → c.streamParser.stopper = .joined
  /-- Messages that are not added yet keep the parser's worker in its loop. -/
  busy : c.outgoing ≠ none → Busy c.streamParser
  parsed : c.streamParser.outcome processChunk = processChunks {} c.received
  added : c.added ≤ c.streamParser.object.dispatched.length
  forwarded : c.dispatcher.outcome record = .ok (c.streamParser.object.dispatched.take c.added)

theorem Fifo.start : Fifo {} :=
  ⟨.start _, .start _, nofun, nofun, nofun, rfl, Nat.le_refl _, rfl⟩

/-- While something is to be added to it, a worker is not stopped. -/
theorem Fifo.reading {c : Pipeline} (h : Fifo c) (hread : c.readerJoined = false) :
    c.streamParser.stopper = .running := by
  by_contra hs
  rw [h.reader hs] at hread
  cases hread

/-- A parser that was joined has added all it dispatched. -/
theorem Fifo.outgoing_joined {c : Pipeline} (h : Fifo c) (hj : c.streamParser.stopper = .joined) :
    c.outgoing = none := by
  by_contra hout
  have hpc := h.parser.joined hj
  rcases h.busy hout with hb | hb <;> rw [hpc] at hb <;> cases hb

theorem Fifo.forwarding {c : Pipeline} (h : Fifo c) (hout : c.outgoing ≠ none) :
    c.dispatcher.stopper = .running := by
  by_contra hs
  exact hout (h.outgoing_joined (h.order hs))

theorem Fifo.addBuf {c : Pipeline} (h : Fifo c) {buf : Bytes} {w : Worker Bytes StreamParser}
    (hread : c.readerJoined = false)
    (hadd : Worker.step processChunk c.streamParser (.add buf) = .ok w) :
    Fifo { c with received := c.received ++ [buf], streamParser := w } := by
  have hrun := h.reading hread
  obtain ⟨hobject, hstopper⟩ := object_add hadd
  exact {
    parser := h.parser.add hrun hadd
    dispatcher := h.dispatcher
    reader := fun hs => absurd (hstopper.trans hrun) hs
    order := fun hs => hstopper.trans (h.order hs)
    busy := by
      unfold Pipeline.outgoing
      rw [hobject]
      exact fun hout => (h.busy hout).add hadd
    parsed := by rw [outcome_add hadd, h.parsed, processChunks, Run.run_append]
    added := by
      rw [hobject]
      exact h.added
    forwarded := by
      rw [hobject]
      exact h.forwarded }

theorem Fifo.parserTurn {c : Pipeline} (h : Fifo c) {act : Act} {w : Worker Bytes StreamParser}
    (hready : c.parserReady act = true)
    (hact : Worker.step processChunk c.streamParser (.act act) = .ok w) :
    Fifo { c with streamParser := w } := by
  unfold Pipeline.parserReady at hready
  have hextends := object_extends hact
  exact {
    parser := h.parser.act hact
    dispatcher := h.dispatcher
    reader := by
      intro hs
      rcases stopper_act hact with hstop | hsame
      · rwa [if_pos hstop] at hready
      · rw [hsame] at hs
        exact h.reader hs
    order := fun hs => joined_act (h.order hs) hact
    busy := by
      intro hout
      rcases object_act hact with hobject | ⟨hbusy, _⟩
      · -- with messages to add, the turn is one of the stop
        unfold Pipeline.outgoing at hout
        rw [hobject] at hout
        have hstop : act.stops = true := by
          by_contra hgo
          rw [if_neg hgo, Option.isNone_iff_eq_none] at hready
          exact hout hready
        exact (h.busy hout).stop hstop hact
      · exact hbusy
    parsed := by
      rw [outcome_act h.parser hact]
      exact h.parsed
    added := h.added.trans hextends.length_le
    forwarded := by
      obtain ⟨more, hmore⟩ := hextends
      rw [← hmore, List.take_append_of_le_length h.added]
      exact h.forwarded }

theorem Fifo.addEvent {c : Pipeline} (h : Fifo c) {event : Bytes} {w : Worker Bytes (List Bytes)}
    (hout : c.outgoing = some event)
    (hadd : Worker.step record c.dispatcher (.add event) = .ok w) :
    Fifo { c with added := c.added + 1, dispatcher := w } := by
  have hsome : c.outgoing ≠ none := by simp [hout]
  have hrun := h.forwarding hsome
  obtain ⟨_, hstopper⟩ := object_add hadd
  exact {
    parser := h.parser
    dispatcher := h.dispatcher.add hrun hadd
    reader := h.reader
    order := fun hs => absurd (hstopper.trans hrun) hs
    busy := fun _ => h.busy hsome
    parsed := h.parsed
    added := (List.getElem?_eq_some_iff.mp hout).1
    forwarded := by
      unfold Pipeline.outgoing at hout
      rw [outcome_add hadd, h.forwarded, List.take_add_one, hout]
      exact run_record _ [event] }

theorem Fifo.dispatcherTurn {c : Pipeline} (h : Fifo c) {act : Act}
    {w : Worker Bytes (List Bytes)} (hready : c.dispatcherReady act = true)
    (hact : Worker.step record c.dispatcher (.act act) = .ok w) :
    Fifo { c with dispatcher := w } := by
  unfold Pipeline.dispatcherReady at hready
  exact {
    parser := h.parser
    dispatcher := h.dispatcher.act hact
    reader := h.reader
    order := by
      intro hs
      rcases stopper_act hact with hstop | hsame
      · rw [if_pos hstop] at hready
        exact of_decide_eq_true hready
      · rw [hsame] at hs
        exact h.order hs
    busy := h.busy
    parsed := h.parsed
    added := h.added
    forwarded := by
      rw [outcome_act h.dispatcher hact]
      exact h.forwarded }

theorem Fifo.step {c c' : Pipeline} {l : Pipeline.Label} (h : Fifo c) (hstep : c.step l = .ok c') :
    Fifo c' := by
  cases step_flowed hstep with
  | read hread hadd => exact h.addBuf hread hadd
  | readerJoined => exact { h with reader := fun _ => rfl }
  | parsed hready hact => exact h.parserTurn hready hact
  | forwarded hout hadd => exact h.addEvent hout hadd
  | dispatched hready hact => exact h.dispatcherTurn hready hact

theorem Fifo.no_fault {c : Pipeline} {l : Pipeline.Label} {f : Fault} (h : Fifo c) :
    c.step l ≠ .error (.fault f) := by
  intro hstep
  rcases step_fault hstep with ⟨l', hl⟩ | ⟨l', hl⟩
  · obtain ⟨p, hrun, _⟩ := processChunks_dispatched c.received
    have hout := outcome_fault h.parser hl
    rw [h.parsed, hrun] at hout
    cases hout
  · have hout := outcome_fault h.dispatcher hl
    rw [h.forwarded] at hout
    cases hout

/-- The dispatcher is behind the parser, and the parser behind the chunks. -/
theorem Fifo.passed {c : Pipeline} (h : Fifo c) {p : StreamParser}
    (hp : processChunks {} c.received = .ok p) : c.passed <+: p.dispatched := by
  have hforwarded := h.forwarded
  unfold outcome at hforwarded
  rw [run_record] at hforwarded
  injection hforwarded with htake
  calc c.passed
    _ <+: c.passed ++ (c.dispatcher.batch ++ c.dispatcher.queue) := List.prefix_append _ _
    _ = c.streamParser.object.dispatched.take c.added := htake
    _ <+: c.streamParser.object.dispatched := List.take_prefix _ _
    _ <+: p.dispatched := processChunks_extends (h.parsed.trans hp)

/-- After the shutdown neither has anything left. -/
theorem Fifo.closed {c : Pipeline} (h : Fifo c) (hclosed : c.Closed) {p : StreamParser}
    (hp : processChunks {} c.received = .ok p) : c.passed = p.dispatched := by
  have hparser : c.streamParser.stopper = .joined := by
    refine h.order ?_
    rw [hclosed]
    decide
  have hpassed : c.dispatcher.outcome record = .ok c.passed :=
    h.dispatcher.outcome_joined hclosed
  have hparsed : c.streamParser.outcome processChunk = .ok c.streamParser.object :=
    h.parser.outcome_joined hparser
  rw [h.forwarded] at hpassed
  rw [h.parsed, hp] at hparsed
  injection hpassed with hpassed
  injection hparsed with hparsed
  rw [hparsed, ← hpassed, List.take_of_length_le]
  exact List.getElem?_eq_none_iff.mp (h.outgoing_joined hparser)

/--
**The pipeline is first-in first-out and loses nothing.**

Whatever the turns of the reader, of the two workers and of `~Connection`: no turn
fails, what was passed to `dispatch_event` begins what one sequential parser dispatches
on the chunks passed to `add_buf`, and is all of it when both workers are joined.
-/
theorem pipeline_fifo (labels : List Pipeline.Label) :
    (∀ f, Run.run Pipeline.step {} labels ≠ .error (.fault f))
    ∧ ∀ c, Run.run Pipeline.step {} labels = .ok c →
      ∃ p, processChunks {} c.received = .ok p
        ∧ c.passed <+: p.dispatched
        ∧ (c.Closed → c.passed = p.dispatched) := by
  have hkeep : ∀ c l c', Fifo c → Pipeline.step c l = .ok c' → Fifo c' :=
    fun c l c' h hstep => h.step hstep
  constructor
  · intro f hrun
    have hfail : ∀ c l e, Fifo c → Pipeline.step c l = .error e → e ≠ .fault f := by
      rintro c l _ h hstep rfl
      exact h.no_fault hstep
    exact Run.run_error hkeep hfail Fifo.start hrun rfl
  · intro c hrun
    have h : Fifo c := Run.invariant_of_step hkeep Fifo.start hrun
    obtain ⟨p, hp, _⟩ := processChunks_dispatched c.received
    exact ⟨p, hp, h.passed hp, fun hclosed => h.closed hclosed hp⟩

/-- One chunk on its way through the pipeline, and then the joins of `~Connection`. -/
example : ∃ c, Run.run Pipeline.step {} [.addBuf (ascii "AMI\r\nA: b\r\n\r\n"),
      .streamParser .check, .streamParser .evaluate, .joinReader, .streamParser .store,
      .streamParser .handle, .streamParser .notify, .dispatcher .check, .dispatcher .evaluate,
      .dispatcher .block, .addEvent, .dispatcher .evaluate, .streamParser .clear,
      .streamParser .check, .streamParser .lock, .dispatcher .handle, .streamParser .finish,
      .streamParser .join, .dispatcher .store, .dispatcher .clear, .dispatcher .notify,
      .dispatcher .check, .dispatcher .lock, .dispatcher .finish, .dispatcher .join] = .ok c
    ∧ c.Closed ∧ c.passed = [ascii "A: b\r\n\r\n"] :=
  ⟨_, rfl, rfl, rfl⟩

end CppAmi.Proof
