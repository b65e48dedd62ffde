import CppAmi.Lib.Framing
import CppAmi.Model.StreamParser

/-!
# The framer cuts the stream at its terminators

Whatever the chunks, the messages `process_chunk` dispatches and the bytes it
keeps are the cut of the stream at `EOM`.

One fact carries everything: between two chunks the buffer holds no `EOM`. It is
what makes resuming the search three bytes before the chunk boundary right, and
each of the three ways out of the loop restores it.
-/

namespace CppAmi.Proof

open CppAmi StreamParser Framing

/-- The loop dispatches the messages of the buffer and leaves what follows the last one. -/
theorem dispatchLoop_framed (fuel : Nat) {p : StreamParser} (hfuel : p.eventBuf.length < fuel) :
    ∃ ms rest, dispatchLoop fuel p (Search.find EOM p.eventBuf)
        = .ok { p with dispatched := p.dispatched ++ ms, eventBuf := rest }
      ∧ Framed EOM p.eventBuf ms rest := by
  induction fuel generalizing p with
  | zero => exact absurd hfuel (Nat.not_lt_zero _)
  | succ fuel ih =>
      cases hf : Search.find EOM p.eventBuf with
      | none =>
          rw [Search.find_eq_none_iff_absent EOM_ne_nil] at hf
          exact ⟨[], p.eventBuf, by simp [dispatchLoop], Framed.nil hf⟩
      | some loc =>
          have hends := endsOnce_take EOM_ne_nil hf
          have hbound := ((Search.find_eq_some_iff EOM_ne_nil).mp hf).1.bound EOM_ne_nil
          by_cases hwhole : loc + EOM.length = p.eventBuf.length
          · -- the whole buffer is one message
            rw [hwhole, List.take_length] at hends
            refine ⟨[p.eventBuf], [], by simp only [dispatchLoop, if_pos hwhole], ?_⟩
            exact Framed.single EOM_ne_nil hends
          · -- the first message goes out, the loop goes on with the rest
            have hlt : (p.eventBuf.drop (loc + EOM.length)).length < fuel := by
              rw [List.length_drop, length_EOM] at *
              omega
            obtain ⟨ms, rest, hloop, hframed⟩ :=
              ih (p := { p with
                dispatched := p.dispatched ++ [p.eventBuf.take (loc + EOM.length)],
                eventBuf := p.eventBuf.drop (loc + EOM.length) }) hlt
            refine ⟨p.eventBuf.take (loc + EOM.length) :: ms, rest, ?_, ?_⟩
            · simp only [dispatchLoop, if_neg hwhole, substr_zero, erase_zero, find,
                Search.findFrom_zero]
              rw [List.append_cons]
              exact hloop
            · have := Framed.cons hends hframed
              rwa [List.take_append_drop] at this

/-- Below the banner, a chunk extends the stream the buffer stands for. -/
theorem parseEvents_framed {p : StreamParser} (hbuf : ¬ EOM <:+: p.eventBuf) (chunk : Bytes) :
    ∃ ms rest, parseEvents p chunk
        = .ok { p with dispatched := p.dispatched ++ ms, eventBuf := rest }
      ∧ Framed EOM (p.eventBuf ++ chunk) ms rest := by
  by_cases hempty : p.eventBuf = []
  · have hloop := dispatchLoop_framed (chunk.length + 1)
      (p := { p with eventBuf := chunk }) (Nat.lt_succ_self _)
    simpa [parseEvents, find, hempty] using hloop
  · -- no message ends before the place where the search resumes
    have hscan : find (p.eventBuf ++ chunk) EOM
        (if p.eventBuf.length < EOM.length then 0 else p.eventBuf.length - EOM.length + 1)
        = Search.find EOM (p.eventBuf ++ chunk) := by
      refine Search.findFrom_append EOM_ne_nil hbuf ?_
      rw [length_EOM]
      split <;> omega
    have hloop := dispatchLoop_framed ((p.eventBuf ++ chunk).length + 1)
      (p := { p with eventBuf := p.eventBuf ++ chunk }) (Nat.lt_succ_self _)
    unfold parseEvents
    rw [if_neg hempty]
    simp only [hscan]
    exact hloop

/-- **The framer run lemma:** from any buffer without `EOM`, the chunks are framed as one stream. -/
theorem processChunks_framed {p : StreamParser} (hfirst : p.firstEvent = false)
    (hbuf : ¬ EOM <:+: p.eventBuf) (chunks : List Bytes) :
    ∃ ms rest, processChunks p chunks
        = .ok { p with dispatched := p.dispatched ++ ms, eventBuf := rest }
      ∧ Framed EOM (p.eventBuf ++ chunks.flatten) ms rest := by
  induction chunks generalizing p with
  | nil => exact ⟨[], p.eventBuf, by simp [processChunks], by simpa using Framed.nil hbuf⟩
  | cons chunk chunks ih =>
      obtain ⟨ms, rest, hstep, hframed⟩ := parseEvents_framed hbuf chunk
      obtain ⟨ms', rest', hrun, hframed'⟩ :=
        ih (p := { p with dispatched := p.dispatched ++ ms, eventBuf := rest }) hfirst hframed.tail
      refine ⟨ms ++ ms', rest', ?_, ?_⟩
      · have hchunk : processChunk p chunk
            = .ok { p with dispatched := p.dispatched ++ ms, eventBuf := rest } := by
          rw [processChunk, if_neg (by simp [hfirst]), hstep]
        rw [processChunks, Run.run_cons hchunk, ← List.append_assoc]
        exact hrun
      · rw [List.flatten_cons, ← List.append_assoc]
        exact hframed.append hframed'

/-- What the parser does with a stream is the cut of the stream. -/
theorem processChunks_cut {s rest : Bytes} {ms : List Bytes} (h : Framed EOM s ms rest)
    {chunks : List Bytes} (hcat : chunks.flatten = s) :
    processChunks { firstEvent := false } chunks
      = .ok { firstEvent := false, eventBuf := rest, dispatched := ms } := by
  obtain ⟨ms', rest', hrun, hframed⟩ :=
    processChunks_framed (p := { firstEvent := false }) rfl (show ¬ EOM <:+: [] by decide) chunks
  rw [List.nil_append, hcat] at hframed
  obtain ⟨rfl, rfl⟩ := hframed.unique EOM_ne_nil h
  exact hrun

/--
**Framing is exact and independent of chunking.**

Fed any chunks with the banner behind it, the parser dispatches messages and keeps
a leftover that are the cut of the stream at `EOM`: they concatenate to it, each
message ends at its only `EOM`, and the leftover has none. Any other chunks of the
same stream give the same result.
-/
theorem framing_exact (chunks : List Bytes) :
    ∃ ms rest, processChunks { firstEvent := false } chunks
        = .ok { firstEvent := false, eventBuf := rest, dispatched := ms }
      ∧ ms.flatten ++ rest = chunks.flatten
      ∧ (∀ m ∈ ms, EndsOnce EOM m)
      ∧ ¬ EOM <:+: rest
      ∧ ∀ chunks' : List Bytes, chunks'.flatten = chunks.flatten →
          processChunks { firstEvent := false } chunks'
            = processChunks { firstEvent := false } chunks := by
  have hstart : ¬ EOM <:+: ({ firstEvent := false } : StreamParser).eventBuf := by decide
  obtain ⟨ms, rest, hrun, hframed⟩ := processChunks_framed rfl hstart chunks
  refine ⟨ms, rest, hrun, hframed.concat, hframed.each, hframed.tail, ?_⟩
  intro chunks' hcat
  obtain ⟨ms', rest', hrun', hframed'⟩ := processChunks_framed rfl hstart chunks'
  rw [hcat] at hframed'
  obtain ⟨hms, hrest⟩ := hframed'.unique EOM_ne_nil hframed
  rw [hrun, hrun', hms, hrest]

end CppAmi.Proof
