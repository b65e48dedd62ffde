import CppAmi.Proof.Agreement
import CppAmi.Proof.System

/-!
# From the bytes to what `invoke` returns

What was proved of a world holds of a connection, where the messages are cut out of bytes.
Untimed calls with ActionIDs of their own return the responses that are in the bytes
(`invoke_bytes`). Whatever the timeouts and the writes, a call that has its ActionID to
itself while it runs ends in one of two ways (`invoke_outcomes`).
-/

namespace CppAmi.Proof

open CppAmi EventDispatcher StreamParser KeyValDict World Connection Framing

/-! ## The messages in the bytes -/

/-- Where the first chunk has the whole banner line, the messages are the cut of what follows. -/
theorem messages_framed {banner chunk : Bytes} (chunks : List Bytes) (hb : ¬ EOR <:+: banner)
    (hfirst : banner ++ EOR <+: chunk) :
    ∃ rest left, banner ++ EOR ++ rest = (chunk :: chunks).flatten
      ∧ Framed EOM rest (framedMessages (chunk :: chunks)) left := by
  obtain ⟨more, hmore⟩ := hfirst
  have hcat : (chunk :: chunks).flatten = banner ++ EOR ++ (more ++ chunks.flatten) := by
    rw [List.flatten_cons, ← hmore, List.append_assoc]
  have heor : EOR <:+: chunk := ⟨banner, more, hmore⟩
  obtain ⟨hfind, _, hrest⟩ := find_first_chunk hb hcat heor
  obtain ⟨version, ms, left, hrun, _, hframed⟩ := processChunks_fresh chunk chunks
  rw [hfind, advance_some, hrest] at hframed
  refine ⟨more ++ chunks.flatten, left, hcat.symm, ?_⟩
  rw [messages_eq hrun]
  exact hframed

section

variable {ι : Type} {calls : ι → Call} {source : Nat → Option ι} {c : Connection ι} {w : World ι}

theorem emitted_eq (h : StandsFor source w c) (a : Bytes) :
    w.emitted a = c.events.filter fun m => m.actionId = some a := by
  unfold World.emitted
  rw [← h.traffic, List.filter_map]
  rfl

theorem heardSince_eq (h : StandsFor source w c) (a : Bytes) (since : Nat) :
    (w.heardSince a since).map Prod.snd
      = (c.dispatched.drop since).filter fun m => m.actionId = some a := by
  unfold World.heardSince
  rw [← h.delivered, ← List.map_drop, List.filter_map]
  rfl

variable [DecidableEq ι]

/-! ## Calls with ActionIDs of their own -/

omit [DecidableEq ι] in
theorem carries_answering (calls : ι → Call) (source : Nat → Option ι) :
    Carries calls source (Connection.Answering calls) (World.Answering calls) where
  invoke := by
    intro w c l _ hl hP
    cases l with
    | emit s m => cases hl
    | writeThrows i what => exact hP
    | _ => trivial
  emit := by
    intro w c m hwire hP hm s i hi
    rw [hwire]
    exact hP m hm i hi
  dispatch := fun _ => trivial

omit [DecidableEq ι] in
theorem Agrees.returned (h : Agrees calls w) {i : ι} {r : Option Reaction}
    (hpc : w.pc i = .returned r) :
    ∃ reaction, r = some reaction ∧ Completes (w.emitted (calls i).actionId) reaction := by
  have hf := (h.sessions (calls i).actionId).follows i rfl
  unfold Follows at hf
  rw [hpc] at hf
  obtain ⟨reaction, hr, hcomp⟩ := response_done hf
  cases hr
  exact ⟨reaction, rfl, completes_mono hcomp (h.heard_emitted (by rw [hpc]; simp))⟩

omit [DecidableEq ι] in
theorem Agrees.not_threw (h : Agrees calls w) (huntimed : ∀ i, (calls i).timeout = none) {i : ι}
    {err : Exn} : w.pc i ≠ .threw err := by
  intro hpc
  have hf := (h.sessions (calls i).actionId).follows i rfl
  unfold Follows at hf
  rw [hpc] at hf
  exact absurd hf.2.1 (by simp [huntimed i])

end

variable {ι : Type} [DecidableEq ι]

/-- What the calls of a connection agree on, in the world that stands for it. -/
theorem run_agrees {calls : ι → Call} (huntimed : ∀ i, (calls i).timeout = none)
    (hinj : ∀ i j, (calls i).actionId = (calls j).actionId → i = j) {sockFd : Int}
    {labels : List (Connection.Label ι)} {c : Connection ι}
    (hanswer : Run.Along (Connection.step calls) (Connection.Answering calls) (connected sockFd)
      labels)
    (hrun : Connection.runLabels calls sockFd labels = .ok c) :
    ∃ w, Stands (fun _ => none) c w ∧ Agrees calls w :=
  run_stands (carries_answering calls fun _ => none)
    (fun _ _ _ h hanswer hstep => agrees_turn h huntimed hinj hanswer (step_turn hstep))
    (agrees_init calls) hanswer hrun

/--
**What an invoke returns is in the bytes.**

Untimed calls with distinct ActionIDs whose writes succeed, and a server whose messages
with a call's ActionID are complete only after the call has written: a call that has
returned has the response that these messages complete, from the first on, and none throws.
Where the first chunk has the whole banner line, the messages are the cut of the bytes that
came in behind it. The histories end with the joins of both workers: what the calls get that
still wait then is said by `closed_outcomes`.
-/
theorem invoke_bytes (calls : ι → Call) (huntimed : ∀ i, (calls i).timeout = none)
    (hinj : ∀ i j, (calls i).actionId = (calls j).actionId → i = j) (sockFd : Int)
    {labels : List (Connection.Label ι)} {c : Connection ι}
    (hanswer : Run.Along (Connection.step calls) (Connection.Answering calls) (connected sockFd)
      labels)
    (hrun : Connection.runLabels calls sockFd labels = .ok c) :
    (∀ i r, c.pc i = .returned r → ∃ reaction, r = some reaction
        ∧ Completes (c.events.filter fun m => m.actionId = some (calls i).actionId) reaction)
      ∧ (∀ i err, c.pc i ≠ .threw err)
      ∧ ∀ banner, ¬ EOR <:+: banner → banner ++ EOR <+: c.pipeline.received.headD [] →
        ∃ rest left, banner ++ EOR ++ rest <+: c.reader.offered
          ∧ Framed EOM rest (framedMessages c.pipeline.received) left := by
  obtain ⟨w, hstands, hagrees⟩ := run_agrees huntimed hinj hanswer hrun
  refine ⟨?_, ?_, ?_⟩
  · intro i r hpc
    rw [← hstands.stands.pc] at hpc
    rw [← emitted_eq hstands.stands]
    exact hagrees.returned hpc
  · intro i err
    rw [← hstands.stands.pc]
    exact hagrees.not_threw huntimed
  · intro banner hb hfirst
    cases hchunks : c.pipeline.received with
    | nil =>
        rw [hchunks] at hfirst
        exact absurd hfirst (by simp [EOR_ne_nil])
    | cons chunk chunks =>
        rw [hchunks, List.headD_cons] at hfirst
        obtain ⟨rest, left, hcat, hframed⟩ := messages_framed chunks hb hfirst
        refine ⟨rest, left, ?_, hframed⟩
        rw [hcat, ← hchunks]
        exact hstands.received_offered

/-- The call of `connection_refines_answered` returns what is in the bytes. -/
theorem invoke_bytes_answered :
    ∃ c, Connection.runLabels (fun _ => { action := Sample.ping "7" }) 3 Sample.answered = .ok c
      ∧ (∃ r, c.pc () = .returned r ∧ ∃ reaction, r = some reaction
        ∧ Completes (c.events.filter fun m => m.actionId = some (ascii "7")) reaction)
      ∧ ∃ rest left, ascii "AMI" ++ EOR ++ rest <+: c.reader.offered
        ∧ Framed EOM rest (framedMessages c.pipeline.received) left := by
  have hrun : ∃ c r, Connection.runLabels (fun _ => { action := Sample.ping "7" }) 3
      Sample.answered = .ok c ∧ c.pc () = .returned r
      ∧ c.pipeline.received.headD [] = ascii "AMI\r\nResponse: Success\r\nActionID: 7\r\n\r\n" :=
    ⟨_, _, rfl, rfl, rfl⟩
  obtain ⟨c, r, hrun, hpc, hfirst⟩ := hrun
  obtain ⟨hreturned, _, hbytes⟩ := invoke_bytes _ (fun _ => rfl) (fun _ _ _ => rfl) 3 (by
    iterate 3 refine (Run.along_cons rfl).mpr ⟨trivial, ?_⟩
    refine (Run.along_cons rfl).mpr ⟨fun m hm i hi => List.mem_cons_self, ?_⟩
    iterate 8 refine (Run.along_cons rfl).mpr ⟨trivial, ?_⟩
    trivial) hrun
  refine ⟨c, hrun, ⟨r, hpc, hreturned () r hpc⟩, hbytes (ascii "AMI") (by decide) ?_⟩
  rw [hfirst]
  exact ⟨ascii "Response: Success\r\nActionID: 7\r\n\r\n", rfl⟩

/-! ## Calls that have their ActionID to themselves while they run -/

omit [DecidableEq ι] in
theorem carries_sequential (calls : ι → Call) (source : Nat → Option ι) (a : Bytes) :
    Carries calls source (Connection.Sequential calls a) (World.Sequential calls a) where
  invoke := by
    intro w c l hs _ hP
    cases l with
    | getEventPipe i =>
        intro hi j hj hne
        rw [hs.pc]
        exact hP hi j hj hne
    | _ => trivial
  emit := fun _ _ _ _ _ _ _ => trivial
  dispatch := fun _ => trivial

/--
**A call ends in one of two ways.**

Whatever the timeouts, the writes that fail and the bytes, if an ActionID is registered only
when the calls before with it have ended: a call with it that returned has a response, made
of the first messages with the ActionID that `dispatch_event` was called with from some
point on. One that threw out of `get` was timed and threw its own timeout. One that waits in
`get` with a timeout does not wait. The histories end with the joins of both workers, and an
untimed call that then still waits is a matter of `closed_outcomes`.
-/
theorem invoke_outcomes (calls : ι → Call) (a : Bytes) (sockFd : Int)
    {labels : List (Connection.Label ι)} {c : Connection ι}
    (hseq : Run.Along (Connection.step calls) (Connection.Sequential calls a) (connected sockFd)
      labels)
    (hrun : Connection.runLabels calls sockFd labels = .ok c) (i : ι)
    (hi : (calls i).actionId = a) :
    (∀ r, c.pc i = .returned r → ∃ reaction since, r = some reaction
        ∧ Completes ((c.dispatched.drop since).filter fun m => m.actionId = some a) reaction)
      ∧ (∀ err, c.pc i = .threw err → (calls i).timeout.isSome ∧ err = timeoutError a)
      ∧ ∀ f, c.pc i = .getting f → (calls i).timeout.isSome →
        c.dispatcher.shared[f]? ≠ some .pending := by
  obtain ⟨w, hstands, hsession⟩ := run_stands (carries_sequential calls (fun _ => none) a)
    (fun _ _ _ h hseq hstep => session_turn h hseq (step_turn hstep)) (session_init calls a)
    hseq hrun
  have hs := hstands.stands
  have hf := hsession.follows i hi
  unfold Follows at hf
  rw [hs.pc] at hf
  refine ⟨?_, ?_, ?_⟩
  · intro r hpc
    rw [hpc] at hf
    obtain ⟨reaction, hr, hcomp⟩ := response_done hf
    cases hr
    rw [World.heard, hi, heardSince_eq hs] at hcomp
    exact ⟨reaction, w.mark i, rfl, hcomp⟩
  · intro err hpc
    rw [hpc] at hf
    rw [← hi]
    exact ⟨hf.2.1, hf.1⟩
  · intro f hpc htimed
    rw [hpc] at hf
    rw [← hs.dispatcher]
    exact hf.2 htimed

namespace Sample

/-- A call that times out, and then another one with its ActionID. -/
def late : List (Connection.Label Bool) :=
  [.invoke (.getEventPipe true), .invoke (.write true), .invoke (.waitTimeout true),
    .invoke (.setExceptionOnPipe true), .invoke (.get true), .invoke (.getEventPipe false),
    .invoke (.write false)]

end Sample

/-- A timeout, and another call with the ActionID behind it. -/
theorem invoke_outcomes_late :
    ∃ c, Connection.runLabels (fun _ : Bool => { action := Sample.ping "7", timeout := some 1 }) 3
        Sample.late = .ok c
      ∧ ∃ err, c.pc true = .threw err ∧ err = timeoutError (ascii "7") := by
  have hrun : ∃ c err, Connection.runLabels
      (fun _ : Bool => { action := Sample.ping "7", timeout := some 1 }) 3 Sample.late = .ok c
      ∧ c.pc true = .threw err := ⟨_, _, rfl, rfl⟩
  obtain ⟨c, err, hrun, hpc⟩ := hrun
  have houtcome := invoke_outcomes _ (ascii "7") 3 (by
    refine (Run.along_cons rfl).mpr ⟨fun _ j _ hne => ?_, ?_⟩
    · cases j with
      | true => exact absurd rfl hne
      | false => trivial
    iterate 4 refine (Run.along_cons rfl).mpr ⟨trivial, ?_⟩
    refine (Run.along_cons rfl).mpr ⟨fun _ j _ hne => ?_, ?_⟩
    · cases j with
      | true => trivial
      | false => exact absurd rfl hne
    exact (Run.along_cons rfl).mpr ⟨trivial, trivial⟩) hrun true rfl
  exact ⟨c, hrun, err, hpc, (houtcome.2.1 err hpc).2⟩

end CppAmi.Proof
