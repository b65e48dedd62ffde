import CppAmi.Lib.Simulation
import CppAmi.Proof.Drain
import CppAmi.Proof.Pipeline
import CppAmi.Proof.Sessions
import CppAmi.Spec.Connection

/-!
# A whole connection is what the calls see

`World` has one queue of messages where a connection has the kernel's queue, chunks, a
parser and two more queues. The theorem of this module is that the threads which call
`invoke` cannot tell the two apart: every history of a connection is matched by one of a
world, in which the server sends a message when the last of its bytes is passed to
`add_buf` (`connection_refines`).
-/

namespace CppAmi.Proof

open CppAmi EventDispatcher StreamParser KeyValDict World Connection Simulation

/-! ## What is complete in the bytes -/

theorem messages_eq {chunks : List Bytes} {p : StreamParser}
    (h : processChunks {} chunks = .ok p) : framedMessages chunks = p.dispatched := by
  unfold framedMessages
  rw [h]

/-- Every message that is dispatched can be parsed. -/
theorem ofMessage_of_mem {chunks : List Bytes} {m : Bytes} (h : m ∈ framedMessages chunks) :
    ∃ d, ofMessage m = .ok d := by
  obtain ⟨p, hp, hends⟩ := processChunks_dispatched chunks
  rw [messages_eq hp] at h
  exact ofMessage_ok (hends m h).suffix

/-- What was complete stays complete, and comes first. -/
theorem messages_grow (chunks more : List Bytes) :
    framedMessages chunks <+: framedMessages (chunks ++ more) := by
  obtain ⟨p, hp, _⟩ := processChunks_dispatched (chunks ++ more)
  rw [messages_eq hp]
  obtain ⟨q, hq, hrest⟩ := Run.run_append_eq_ok.mp hp
  rw [messages_eq hq]
  exact processChunks_extends hrest

theorem parseAll_append (bufs bufs' : List Bytes) :
    parseAll (bufs ++ bufs') = parseAll bufs ++ parseAll bufs' :=
  List.filterMap_append ..

theorem parseAll_cons {buf : Bytes} {d : KeyValDict} (h : ofMessage buf = .ok d)
    (bufs : List Bytes) : parseAll (buf :: bufs) = d :: parseAll bufs := by
  unfold parseAll
  rw [List.filterMap_cons, h]
  rfl

/-! ## What one turn does -/

section Turns

/-- A turn of the pipeline passes on one buffer at most. -/
theorem Flowed.passes {c c' : Pipeline} {l : Pipeline.Label} (h : Flowed c l c') :
    c'.passed = c.passed ∨ ∃ buf, c'.passed = c.passed ++ [buf] := by
  cases h with
  | forwarded hout hadd => exact .inl (object_add hadd).1
  | dispatched hready hact =>
      rcases object_act hact with hsame | ⟨_, buf, hbuf⟩
      · exact .inl hsame
      · injection hbuf with hbuf
        exact .inr ⟨buf, hbuf.symm⟩
  | _ => exact .inl rfl

/-- Only `add_buf` changes what was received. -/
theorem Flowed.received {c c' : Pipeline} {l : Pipeline.Label} (h : Flowed c l c')
    (hl : ∀ buf, l ≠ .addBuf buf) : c'.received = c.received := by
  cases h with
  | @read buf w hread hadd => exact absurd rfl (hl buf)
  | _ => rfl

/-- What was read stays read. -/
theorem chunks_step {r r' : SocketReader} {l : SocketReader.Label}
    (h : SocketReader.step r l = .ok r') : r.chunks <+: r'.chunks := by
  cases l with
  | arrive bytes =>
      cases h
      exact List.prefix_refl _
  | stop =>
      cases h
      exact List.prefix_refl _
  | read polled arrived received =>
      obtain ⟨_, h⟩ := Run.ite_eq_ok h
      split at h
      · cases h
        unfold SocketReader.handOn
        split
        · exact List.prefix_refl _
        · exact List.prefix_append _ _
      · cases h

/-- The turns of a connection that are turns of its pipeline, `add_buf` apart. -/
def pipelineLabel {ι : Type} : Connection.Label ι → Option Pipeline.Label
  | .joinReader => some .joinReader
  | .streamParser act => some (.streamParser act)
  | .addEvent => some .addEvent
  | .dispatcher act => some (.dispatcher act)
  | _ => none

theorem pipelineLabel_eq {ι : Type} {l : Connection.Label ι} {l' : Pipeline.Label}
    (h : pipelineLabel l = some l') : l.seen = none ∧ ∀ buf, l' ≠ .addBuf buf := by
  cases l with
  | reader l => cases h
  | addBuf => cases h
  | invoke l => cases h
  | _ =>
      cases h
      exact ⟨rfl, by simp⟩

variable {ι : Type} [DecidableEq ι]

/-- Everything one turn of a connection can do. -/
inductive Moved (calls : ι → Call) (c : Connection ι) :
    Connection.Label ι → Connection ι → Prop where
  | reader {l : SocketReader.Label} {r : SocketReader} (hready : c.readerReady l = true)
      (hstep : c.reader.step l = .ok r) : Moved calls c (.reader l) { c with reader := r }
  | handed {buf : Bytes} {p : Pipeline} (hbuf : c.reader.chunks[c.handed]? = some buf)
      (hstep : c.pipeline.step (.addBuf buf) = .ok p) :
      Moved calls c .addBuf { c with pipeline := p, handed := c.handed + 1 }
  | flowed {l : Connection.Label ι} {l' : Pipeline.Label} {p : Pipeline}
      (hl : pipelineLabel l = some l') (hstep : c.pipeline.step l' = .ok p)
      (hpassed : p.passed = c.pipeline.passed) : Moved calls c l { c with pipeline := p }
  | dispatched {l : Connection.Label ι} {l' : Pipeline.Label} {p : Pipeline} {buf : Bytes}
      {d : EventDispatcher} (hl : pipelineLabel l = some l') (hstep : c.pipeline.step l' = .ok p)
      (hpassed : p.passed = c.pipeline.passed ++ [buf])
      (hd : c.dispatcher.dispatchEvent buf = .ok d) :
      Moved calls c l { c with pipeline := p, dispatcher := d }
  | invoked {l : CppAmi.Label ι} {w : World ι} (hl : l.caller.isSome = true)
      (hw : c.calling.step calls l = .ok w) :
      Moved calls c (.invoke l) { c with dispatcher := w.dispatcher, pc := w.pc, wire := w.wire }

theorem lift_eq_ok {α : Type} {x : Except Fault α} {a : α} (h : World.lift x = .ok a) :
    x = .ok a := by
  cases x with
  | ok b =>
      cases h
      rfl
  | error f => cases h

omit [DecidableEq ι] in
/-- A turn of the pipeline works on the maps where it passes on a buffer. -/
theorem flow_eq_ok {c c' : Connection ι} {l : Pipeline.Label} (h : c.flow l = .ok c') :
    ∃ p, c.pipeline.step l = .ok p
      ∧ ((p.passed = c.pipeline.passed ∧ c' = { c with pipeline := p })
        ∨ ∃ buf d, p.passed = c.pipeline.passed ++ [buf] ∧ c.dispatcher.dispatchEvent buf = .ok d
          ∧ c' = { c with pipeline := p, dispatcher := d }) := by
  obtain ⟨p, hp, hrest⟩ := Run.bind_eq_ok h
  obtain ⟨d, hd, hc⟩ := Run.bind_eq_ok hrest
  have hd := lift_eq_ok hd
  cases hc
  refine ⟨p, hp, ?_⟩
  rcases (step_flowed hp).passes with hsame | ⟨buf, hmore⟩
  · rw [hsame, List.drop_length] at hd
    cases hd
    exact .inl ⟨hsame, rfl⟩
  · rw [hmore, List.drop_left] at hd
    obtain ⟨d', hd', hnil⟩ := Run.run_cons_eq_ok.mp hd
    cases hnil
    exact .inr ⟨buf, _, hmore, hd', rfl⟩

theorem moved_of_flow {calls : ι → Call} {c c' : Connection ι} {l : Connection.Label ι}
    {l' : Pipeline.Label} (hl : pipelineLabel l = some l') (h : c.flow l' = .ok c') :
    Moved calls c l c' := by
  obtain ⟨p, hp, ⟨hsame, rfl⟩ | ⟨buf, d, hmore, hd, rfl⟩⟩ := flow_eq_ok h
  · exact .flowed hl hp hsame
  · exact .dispatched hl hp hmore hd

theorem step_moved {calls : ι → Call} {c c' : Connection ι} {l : Connection.Label ι}
    (h : Connection.step calls c l = .ok c') : Moved calls c l c' := by
  cases l with
  | reader l =>
      obtain ⟨hready, hstep⟩ := Run.ite_eq_ok h
      obtain ⟨r, hr, hc⟩ := Run.bind_eq_ok hstep
      cases hc
      exact .reader hready hr
  | addBuf =>
      simp only [Connection.step] at h
      split at h
      · rename_i buf hbuf
        obtain ⟨c₁, hflow, hc⟩ := Run.bind_eq_ok h
        cases hc
        obtain ⟨p, hp, hcase⟩ := flow_eq_ok hflow
        -- `add_buf` passes nothing on to `dispatch_event`
        have hpassed : p.passed = c.pipeline.passed := by
          cases step_flowed hp with
          | read hread hadd => rfl
        rcases hcase with ⟨_, rfl⟩ | ⟨buf', d, hmore, _⟩
        · exact .handed hbuf hp
        · rw [hpassed] at hmore
          simp at hmore
      · cases h
  | joinReader => exact moved_of_flow rfl (Run.ite_eq_ok h).2
  | streamParser act => exact moved_of_flow rfl h
  | addEvent => exact moved_of_flow rfl h
  | dispatcher act => exact moved_of_flow rfl h
  | invoke l =>
      obtain ⟨hl, hstep⟩ := Run.ite_eq_ok h
      obtain ⟨w, hw, hc⟩ := Run.bind_eq_ok hstep
      cases hc
      exact .invoked hl hw

end Turns

/-! ## The world that stands for a connection -/

section Refinement

variable {ι : Type} [DecidableEq ι] {calls : ι → Call} {source : Nat → Option ι}

/-- What of a turn in a world is a turn of a call. -/
def callsSeen (l : CppAmi.Label ι) : Option (CppAmi.Label ι) :=
  if l.caller.isSome then some l else none

/-- A condition on the turns of a connection implies one on the turns of its world. -/
structure Carries (calls : ι → Call) (source : Nat → Option ι)
    (P : Connection ι → Connection.Label ι → Prop) (Q : World ι → CppAmi.Label ι → Prop) :
    Prop where
  invoke : ∀ w c l, StandsFor source w c → l.caller.isSome = true → P c (.invoke l) → Q w l
  emit : ∀ w c m, w.wire = c.wire → P c .addBuf → m ∈ c.nextEvents → ∀ s, Q w (.emit s m)
  dispatch : ∀ w, Q w .dispatch

/-- A world stands for a connection, and the connection is as its turns leave it. -/
structure Stands (source : Nat → Option ι) (c : Connection ι) (w : World ι) : Prop where
  stands : StandsFor source w c
  fifo : Fifo c.pipeline
  handed : c.handed ≤ c.reader.chunks.length
  received : c.pipeline.received = c.reader.chunks.take c.handed
  offered : c.reader.chunks.flatten ++ c.reader.queue = c.reader.offered

omit [DecidableEq ι] in
theorem stands_connected (source : Nat → Option ι) (sockFd : Int) :
    Stands source (connected sockFd) {} where
  stands := ⟨rfl, rfl, rfl, rfl, rfl, by
    intro n sm h
    cases h⟩
  fifo := .start
  handed := Nat.le_refl _
  received := rfl
  offered := rfl

omit [DecidableEq ι] in
/-- The bytes that were passed to `add_buf` are the first of those that came in. -/
theorem Stands.received_offered {c : Connection ι} {w : World ι} (h : Stands source c w) :
    c.pipeline.received.flatten <+: c.reader.offered := by
  have hflat : (c.reader.chunks.take c.handed).flatten
      ++ (c.reader.chunks.drop c.handed).flatten = c.reader.chunks.flatten := by
    rw [← List.flatten_append, List.take_append_drop]
  rw [h.received, ← h.offered, ← hflat, List.append_assoc]
  exact List.prefix_append _ _

/-- A turn of a call is the same whatever the messages. -/
theorem step_calling {w v v' : World ι} {l : CppAmi.Label ι} (hd : v.dispatcher = w.dispatcher)
    (hpc : v.pc = w.pc) (hwire : v.wire = w.wire) (hl : l.caller.isSome = true)
    (h : World.step calls v l = .ok v') :
    ∃ w', World.step calls w l = .ok w' ∧ w'.dispatcher = v'.dispatcher ∧ w'.pc = v'.pc
      ∧ w'.wire = v'.wire ∧ w'.inFlight = w.inFlight ∧ w'.delivered = w.delivered := by
  obtain ⟨d, pc, wire, inFlight, delivered, mark, elapsed⟩ := w
  obtain ⟨d', pc', wire', inFlight', delivered', mark', elapsed'⟩ := v
  simp only at hd hpc hwire
  subst hd hpc hwire
  cases l with
  | emit source m => cases hl
  | dispatch => cases hl
  | getEventPipe i | write i | writeThrows i what =>
      simp only [World.step] at h ⊢
      split at h
      · cases h
        exact ⟨_, rfl, rfl, rfl, rfl, rfl, rfl⟩
      · cases h
  | waitReady i =>
      simp only [World.step] at h ⊢
      split at h
      · split at h
        · cases h
        · rename_i hready
          cases h
          rw [if_neg hready]
          exact ⟨_, rfl, rfl, rfl, rfl, rfl, rfl⟩
      · cases h
  | waitTimeout i =>
      simp only [World.step] at h ⊢
      split at h
      · split at h
        · rename_i hpending
          cases h
          rw [if_pos hpending]
          exact ⟨_, rfl, rfl, rfl, rfl, rfl, rfl⟩
        · cases h
      · cases h
  | setExceptionOnPipe i =>
      simp only [World.step] at h ⊢
      split at h
      · obtain ⟨d, hd, hv⟩ := Run.bind_eq_ok h
        cases hv
        rw [hd]
        exact ⟨_, rfl, rfl, rfl, rfl, rfl, rfl⟩
      · cases h
  | get i =>
      simp only [World.step] at h ⊢
      split at h
      · split at h
        · cases h
          exact ⟨_, rfl, rfl, rfl, rfl, rfl, rfl⟩
        · cases h
          exact ⟨_, rfl, rfl, rfl, rfl, rfl, rfl⟩
        · cases h
      · cases h

/-- The server sends what becomes complete. -/
theorem emits {Q : World ι → CppAmi.Label ι → Prop} (ms : List Event) (w : World ι)
    (hQ : ∀ v : World ι, v.wire = w.wire → ∀ m ∈ ms, ∀ s, Q v (.emit s m))
    (hsource : ∀ n sm, w.traffic[n]? = some sm → sm.1 = source n) :
    ∃ ks sms, Matched (World.step calls) callsSeen Q w [] ks
        { w with inFlight := w.inFlight ++ sms }
      ∧ sms.map Prod.snd = ms
      ∧ ∀ n sm, (w.traffic ++ sms)[n]? = some sm → sm.1 = source n := by
  induction ms generalizing w with
  | nil =>
      refine ⟨[], [], ?_, rfl, ?_⟩
      · rw [List.append_nil]
        exact .refl w
      · rw [List.append_nil]
        exact hsource
  | cons m ms ih =>
      let sm : Option ι × Event := (source w.traffic.length, m)
      have hone : Matched (World.step calls) callsSeen Q w [] [.emit sm.1 m]
          { w with inFlight := w.inFlight ++ [sm] } :=
        .one rfl (hQ w rfl m List.mem_cons_self sm.1)
      have htraffic : ({ w with inFlight := w.inFlight ++ [sm] } : World ι).traffic
          = w.traffic ++ [sm] := (List.append_assoc ..).symm
      obtain ⟨ks, sms, hks, hms, hrest⟩ := ih { w with inFlight := w.inFlight ++ [sm] }
        (fun v hv x hx => hQ v hv x (List.mem_cons_of_mem m hx)) (by
          intro n x hx
          rw [htraffic, List.getElem?_append] at hx
          split at hx
          · exact hsource n x hx
          · rename_i hn
            obtain ⟨hlt, rfl⟩ := List.getElem?_eq_some_iff.mp hx
            simp only [List.length_singleton] at hlt
            have hn : n = w.traffic.length := by omega
            simp [sm, hn])
      refine ⟨[.emit sm.1 m] ++ ks, sm :: sms, ?_, by rw [List.map_cons, hms], ?_⟩
      · rw [List.append_cons]
        exact hone.trans hks
      · rw [htraffic, ← List.append_cons] at hrest
        exact hrest

omit [DecidableEq ι] in
/-- The buffer that is passed on is the first message that is in flight. -/
theorem Stands.next {c : Connection ι} {w : World ι} (h : Stands source c w) {p : Pipeline}
    {buf : Bytes} (hp : Fifo p) (hreceived : p.received = c.pipeline.received)
    (hpassed : p.passed = c.pipeline.passed ++ [buf]) :
    ∃ s m rest, w.inFlight = (s, m) :: rest ∧ ofMessage buf = .ok m := by
  obtain ⟨q, hq, _⟩ := processChunks_dispatched p.received
  obtain ⟨rest, hrest⟩ := hp.passed hq
  rw [hpassed, ← messages_eq hq, hreceived, List.append_assoc] at hrest
  have hmem : buf ∈ framedMessages c.pipeline.received := by
    rw [← hrest]
    simp
  obtain ⟨m, hm⟩ := ofMessage_of_mem hmem
  have htraffic := h.stands.traffic
  rw [Connection.events, ← hrest, parseAll_append, List.singleton_append, parseAll_cons hm,
    World.traffic, List.map_append, h.stands.delivered] at htraffic
  have hflight := List.append_cancel_left htraffic
  obtain ⟨sm, fl, hfl, rfl, _⟩ := List.map_eq_cons_iff.mp hflight
  exact ⟨sm.1, sm.2, fl, hfl, hm⟩

/-- **One turn of a connection is matched by the world that stands for it.** -/
theorem moved_matched {P : Connection ι → Connection.Label ι → Prop}
    {Q : World ι → CppAmi.Label ι → Prop} (hcarry : Carries calls source P Q)
    {c c' : Connection ι} {w : World ι} {l : Connection.Label ι} (h : Stands source c w)
    (hP : P c l) (hm : Moved calls c l c') :
    ∃ ks w', Matched (World.step calls) callsSeen Q w l.seen.toList ks w'
      ∧ Stands source c' w' := by
  obtain ⟨hs, hfifo, hhanded, hreceived, hoffered⟩ := h
  cases hm with
  | @reader l r hready hstep =>
      obtain ⟨more, hmore⟩ := chunks_step hstep
      refine ⟨[], w, .refl w, ⟨hs.dispatcher, hs.pc, hs.wire, hs.traffic, hs.delivered, hs.source⟩,
        hfifo, ?_, ?_, offered_step hoffered hstep⟩
      · show c.handed ≤ r.chunks.length
        rw [← hmore, List.length_append]
        omega
      · show c.pipeline.received = r.chunks.take c.handed
        rw [← hmore, List.take_append_of_le_length hhanded]
        exact hreceived
  | @handed buf p hbuf hstep =>
      have hnew := hfifo.step hstep
      obtain ⟨hlt, hget⟩ := List.getElem?_eq_some_iff.mp hbuf
      obtain ⟨ks, sms, hks, hsms, hsource⟩ := @emits _ _ calls source Q c.nextEvents w
        (fun v hv m hm s => hcarry.emit v c m (hv.trans hs.wire) hP hm s) hs.source
      cases step_flowed hstep with
      | @read _ sp hread hadd =>
          refine ⟨ks, _, hks, ⟨hs.dispatcher, hs.pc, hs.wire, ?_, hs.delivered, ?_⟩, hnew, hlt, ?_,
            hoffered⟩
          · -- what becomes complete is behind what was
            obtain ⟨more, hmore⟩ := messages_grow c.pipeline.received [buf]
            have hnext : c.nextEvents = parseAll more := by
              unfold Connection.nextEvents
              rw [hbuf]
              simp only [← hmore, List.drop_left]
            show (w.delivered ++ (w.inFlight ++ sms)).map Prod.snd
              = parseAll (framedMessages (c.pipeline.received ++ [buf]))
            rw [← List.append_assoc, List.map_append, hsms, hnext, ← hmore, parseAll_append]
            exact congrArg (· ++ parseAll more) hs.traffic
          · show ∀ n sm, (w.delivered ++ (w.inFlight ++ sms))[n]? = some sm → sm.1 = source n
            rw [← List.append_assoc]
            exact hsource
          · show c.pipeline.received ++ [buf] = c.reader.chunks.take (c.handed + 1)
            rw [List.take_add_one, hbuf, hreceived]
            rfl
  | @flowed l l' p hl hstep hpassed =>
      obtain ⟨hseen, hadd⟩ := pipelineLabel_eq hl
      have hsame := (step_flowed hstep).received hadd
      rw [hseen]
      refine ⟨[], w, .refl w, ⟨hs.dispatcher, hs.pc, hs.wire, ?_, ?_, hs.source⟩,
        hfifo.step hstep, hhanded, hsame.trans hreceived, hoffered⟩
      · show _ = parseAll (framedMessages p.received)
        rw [hsame]
        exact hs.traffic
      · show _ = parseAll p.passed
        rw [hpassed]
        exact hs.delivered
  | @dispatched l l' p buf d hl hstep hpassed hd =>
      obtain ⟨hseen, hadd⟩ := pipelineLabel_eq hl
      have hsame := (step_flowed hstep).received hadd
      have hnew := hfifo.step hstep
      obtain ⟨s, m, rest, hflight, hparse⟩ :=
        Stands.next ⟨hs, hfifo, hhanded, hreceived, hoffered⟩ hnew hsame hpassed
      have hdict : w.dispatcher.dispatchDict m = .ok d := by
        unfold dispatchEvent at hd
        rw [hparse, ← hs.dispatcher] at hd
        exact hd
      have hturn : World.step calls w .dispatch = .ok { w with
          dispatcher := d, inFlight := rest, delivered := w.delivered ++ [(s, m)] } := by
        simp only [World.step, hflight, hdict]
        rfl
      have htraffic : (w.delivered ++ [(s, m)]) ++ rest = w.traffic := by
        rw [World.traffic, hflight, ← List.append_cons]
      rw [hseen]
      refine ⟨[.dispatch], _, .one hturn (hcarry.dispatch w), ⟨rfl, hs.pc, hs.wire, ?_, ?_, ?_⟩,
        hnew, hhanded, hsame.trans hreceived, hoffered⟩
      · show ((w.delivered ++ [(s, m)]) ++ rest).map Prod.snd = parseAll (framedMessages p.received)
        rw [htraffic, hsame]
        exact hs.traffic
      · show (w.delivered ++ [(s, m)]).map Prod.snd = parseAll p.passed
        rw [hpassed, List.map_append, hs.delivered, parseAll_append, parseAll_cons hparse]
        rfl
      · show ∀ n sm, ((w.delivered ++ [(s, m)]) ++ rest)[n]? = some sm → sm.1 = source n
        rw [htraffic]
        exact hs.source
  | @invoked l v hl hv =>
      obtain ⟨w', hw', hd, hpc, hwire, hflight, hdelivered⟩ :=
        step_calling (v := c.calling) (w := w) hs.dispatcher.symm hs.pc.symm hs.wire.symm hl hv
      have hseen : callsSeen l = some l := if_pos hl
      have hone : Matched (World.step calls) callsSeen Q w (callsSeen l).toList [l] w' :=
        .one hw' (hcarry.invoke w c l hs hl hP)
      rw [hseen] at hone
      refine ⟨[l], w', hone, ⟨hd, hpc, hwire, ?_, ?_, ?_⟩, hfifo, hhanded, hreceived, hoffered⟩
      · rw [World.traffic, hflight, hdelivered]
        exact hs.traffic
      · rw [hdelivered]
        exact hs.delivered
      · rw [World.traffic, hflight, hdelivered]
        exact hs.source

/-- Every history of a connection is matched, from worlds and connections that are alike on. -/
theorem run_matched {P : Connection ι → Connection.Label ι → Prop}
    {Q : World ι → CppAmi.Label ι → Prop} (hcarry : Carries calls source P Q) {sockFd : Int}
    {labels : List (Connection.Label ι)} {c : Connection ι}
    (hP : Run.Along (Connection.step calls) P (connected sockFd) labels)
    (hrun : Connection.runLabels calls sockFd labels = .ok c) :
    ∃ ks w, Matched (World.step calls) callsSeen Q {} (labels.filterMap Label.seen) ks w
      ∧ Stands source c w :=
  run_forward (R := fun c w => Stands source c w)
    (fun _ _ _ _ h hP hstep => moved_matched hcarry h hP (step_moved hstep))
    (stands_connected source sockFd) hP hrun

/-- What holds in every world holds of the worlds that stand for a connection. -/
theorem run_stands {P : Connection ι → Connection.Label ι → Prop}
    {Q : World ι → CppAmi.Label ι → Prop} {Inv : World ι → Prop}
    (hcarry : Carries calls source P Q)
    (hinv : ∀ w l w', Inv w → Q w l → World.step calls w l = .ok w' → Inv w') {sockFd : Int}
    {labels : List (Connection.Label ι)} {c : Connection ι} (hi : Inv {})
    (hP : Run.Along (Connection.step calls) P (connected sockFd) labels)
    (hrun : Connection.runLabels calls sockFd labels = .ok c) :
    ∃ w, Stands source c w ∧ Inv w :=
  run_transfer (R := fun c w => Stands source c w)
    (fun _ _ _ _ h hP hstep => moved_matched hcarry h hP (step_moved hstep)) hinv
    (stands_connected source sockFd) hi hP hrun

omit [DecidableEq ι] in
/-- Without a condition there is none to carry. -/
theorem carries_true (calls : ι → Call) (source : Nat → Option ι) :
    Carries calls source (fun _ _ => True) fun _ _ => True where
  invoke := fun _ _ _ _ _ _ => trivial
  emit := fun _ _ _ _ _ _ _ => trivial
  dispatch := fun _ => trivial

end Refinement

/-! ## The theorems -/

section

variable {ι : Type} [DecidableEq ι]

/--
**A connection is what the calls of `invoke` see of it.**

For every history of a connection, with any bytes, any chunks and any turns of its threads,
there is a history of a world with the same turns of the calls: it ends with the same maps,
the same calls and the same wire, and its server has sent the messages that are complete in
the bytes passed to `add_buf`, in order. These bytes are the first of those that came in.
`source` may be any labelling of the messages with the calls they answer.
-/
theorem connection_refines (calls : ι → Call) (source : Nat → Option ι) (sockFd : Int)
    {labels : List (Connection.Label ι)} {c : Connection ι}
    (hrun : Connection.runLabels calls sockFd labels = .ok c) :
    ∃ ks w, World.runLabels calls ks = .ok w
      ∧ ks.filterMap callsSeen = labels.filterMap Label.seen
      ∧ StandsFor source w c
      ∧ c.pipeline.received.flatten <+: c.reader.offered := by
  obtain ⟨ks, w, hks, hstands⟩ := run_matched (carries_true calls source)
    (Run.along_of_forall (fun _ _ => trivial) _ labels) hrun
  exact ⟨ks, w, hks.run, hks.seen, hstands.stands, hstands.received_offered⟩

namespace Sample

/-- The turns of the two workers that take one chunk with one message to `dispatch_event`. -/
def oneMessage : List (Connection.Label Unit) :=
  [.streamParser .check, .streamParser .evaluate, .streamParser .handle, .addEvent,
    .dispatcher .check, .dispatcher .evaluate, .dispatcher .handle]

/-- The banner and the answer come in after the call has written, in one chunk. -/
def answered : List (Connection.Label Unit) :=
  [.invoke (.getEventPipe ()), .invoke (.write ()),
    .reader (.read (.ready POLLIN) (ascii "AMI\r\nResponse: Success\r\nActionID: 7\r\n\r\n")
      (.received 39)), .addBuf] ++ oneMessage ++ [.invoke (.get ())]

end Sample

/-- A call and its answer, from the bytes to the result. -/
theorem connection_refines_answered :
    ∃ c, Connection.runLabels (fun _ => { action := Sample.ping "7" }) 3 Sample.answered = .ok c
      ∧ ∃ ks w, World.runLabels (fun _ => { action := Sample.ping "7" }) ks = .ok w
        ∧ ks.filterMap callsSeen = Sample.answered.filterMap Label.seen
        ∧ StandsFor (fun _ => none) w c ∧ c.pipeline.received.flatten <+: c.reader.offered := by
  have hrun : ∃ c, Connection.runLabels (fun _ => { action := Sample.ping "7" }) 3
      Sample.answered = .ok c := ⟨_, rfl⟩
  obtain ⟨c, hrun⟩ := hrun
  exact ⟨c, hrun, connection_refines _ _ 3 hrun⟩

/-! ## No turn fails -/

/-- A connection for which a world with sound maps stands. -/
def Healthy (c : Connection ι) : Prop := ∃ w, Stands (fun _ => none) c w ∧ Sound w.dispatcher

omit [DecidableEq ι] in
theorem healthy_connected (sockFd : Int) : Healthy (connected sockFd : Connection ι) :=
  ⟨{}, stands_connected _ sockFd, sound_init⟩

theorem Healthy.step {calls : ι → Call} {c c' : Connection ι} {l : Connection.Label ι}
    (h : Healthy c) (hstep : Connection.step calls c l = .ok c') : Healthy c' := by
  obtain ⟨w, hstands, hsound⟩ := h
  obtain ⟨ks, w', hks, hstands'⟩ := moved_matched (carries_true calls _) hstands trivial
    (step_moved hstep)
  exact ⟨w', hstands', Run.invariant_of_step (fun _ _ _ hs h => (step_turn h).sound hs) hsound
    hks.run⟩

variable {calls : ι → Call} {source : Nat → Option ι} {c : Connection ι} {w : World ι}

namespace Sample

end Sample

end

end CppAmi.Proof
