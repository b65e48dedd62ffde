import CppAmi.Proof.Framer

/-!
# The banner

The first chunk is treated specially: its text up to the first `EOR` is the AMI
version, and the search result is advanced past the `EOR` without asking whether
there was one. A first chunk that holds the whole banner line is split exactly. A
first chunk that does not is taken for the banner as it is, loses its first byte to
the `npos + 2` that wrapped to one, and hands the rest to the event buffer.
-/

namespace CppAmi.Proof

open CppAmi StreamParser Framing

/-- What `process_chunk` makes of the first chunk: one version, and the chunk less the bytes it
took off the front as the start of the event stream. -/
theorem processChunk_first (chunk : Bytes) :
    ∃ version ms rest, processChunk {} chunk
        = .ok { firstEvent := false, eventBuf := rest, versions := [version], dispatched := ms }
      ∧ substr chunk 0 (find chunk EOR 0) = .ok version
      ∧ Framed EOM (chunk.drop (advance (find chunk EOR 0) 2)) ms rest := by
  obtain ⟨version, hversion⟩ : ∃ v, substr chunk 0 (find chunk EOR 0) = .ok v := by
    cases find chunk EOR 0 with
    | none => exact ⟨_, substr_zero_npos chunk⟩
    | some i => exact ⟨_, substr_zero chunk i⟩
  by_cases hall : chunk.length = advance (find chunk EOR 0) 2
  · refine ⟨version, [], [], ?_, hversion, ?_⟩
    · unfold processChunk
      rw [if_pos rfl]
      simp only [hversion, bind, Except.bind, if_pos hall]
      rfl
    · rw [← hall, List.drop_length]
      exact Framed.nil (by decide)
  · obtain ⟨ms, rest, hstep, hframed⟩ :=
      parseEvents_framed (p := { firstEvent := false, versions := [version] })
        (show ¬ EOM <:+: [] by decide)
        (chunk.drop (advance (find chunk EOR 0) 2))
    refine ⟨version, ms, rest, ?_, hversion, hframed⟩
    unfold processChunk
    rw [if_pos rfl]
    simp only [hversion, bind, Except.bind, if_neg hall, erase_zero]
    exact hstep

/-- The run of a fresh parser: one version, and one cut of everything behind the banner. -/
theorem processChunks_fresh (chunk : Bytes) (chunks : List Bytes) :
    ∃ version ms rest, processChunks {} (chunk :: chunks)
        = .ok { firstEvent := false, eventBuf := rest, versions := [version], dispatched := ms }
      ∧ substr chunk 0 (find chunk EOR 0) = .ok version
      ∧ Framed EOM (chunk.drop (advance (find chunk EOR 0) 2) ++ chunks.flatten) ms rest := by
  obtain ⟨version, ms, rest, hstep, hversion, hframed⟩ := processChunk_first chunk
  obtain ⟨ms', rest', hrun, hframed'⟩ := processChunks_framed
    (p := { firstEvent := false, eventBuf := rest, versions := [version], dispatched := ms })
    rfl hframed.tail chunks
  refine ⟨version, ms ++ ms', rest', ?_, hversion, hframed.append hframed'⟩
  rw [processChunks, Run.run_cons hstep]
  exact hrun

/-- The banner is consumed exactly: one version, the banner, and the events behind it framed
alone. -/
def BannerConsumed (banner rest : Bytes) (chunks : List Bytes) : Prop :=
  ∃ ms left, processChunks {} chunks
      = .ok { firstEvent := false, eventBuf := left, versions := [banner], dispatched := ms }
    ∧ Framed EOM rest ms left

/-- A first chunk with an `EOR` splits the stream where the banner line ends. -/
theorem find_first_chunk {banner rest chunk : Bytes} {chunks : List Bytes}
    (hb : ¬ EOR <:+: banner) (hcat : (chunk :: chunks).flatten = banner ++ EOR ++ rest)
    (hcrlf : EOR <:+: chunk) :
    find chunk EOR 0 = some banner.length ∧ banner <+: chunk
      ∧ chunk.drop (banner.length + 2) ++ chunks.flatten = rest := by
  rw [List.flatten_cons] at hcat
  obtain ⟨i, hi⟩ := Search.infix_iff_occursAt.mp hcrlf
  -- `EOR` cannot overlap itself, so the banner line has its `EOR` where the banner ends
  have hfirst := Search.find_append_self (s := rest) EOR_ne_nil (by decide) hb
  have hbanner := (Search.find_eq_some_iff EOR_ne_nil).mp hfirst
  rw [← hcat] at hbanner
  -- the chunk's own first `EOR` is one of the stream, so the banner ends inside the chunk
  have hle : banner.length ≤ i := by
    rcases Nat.lt_or_ge i banner.length with hlt | hge
    · exact absurd (hi.append EOR_ne_nil chunks.flatten) (hbanner.2 i hlt)
    · exact hge
  have hlen : banner.length + 2 ≤ chunk.length := by
    have := hi.bound EOR_ne_nil
    rw [length_EOR] at this
    omega
  have hpre : banner ++ EOR <+: chunk :=
    List.prefix_of_prefix_length_le (hcat ▸ List.prefix_append _ rest)
      (List.prefix_append chunk chunks.flatten) (by simpa using hlen)
  refine ⟨?_, (List.prefix_append _ _).trans hpre, ?_⟩
  · unfold find
    rw [Search.findFrom_zero]
    exact (Search.find_eq_some_iff EOR_ne_nil).mpr
      ⟨hbanner.1.of_append hlen,
        fun j hj hocc => hbanner.2 j hj (hocc.append EOR_ne_nil _)⟩
  · have hdrop := congrArg (List.drop (banner.length + 2)) hcat
    rw [List.drop_append_of_le_length hlen] at hdrop
    rw [hdrop, List.drop_left' (by simp)]

/--
**The banner is consumed exactly when the first chunk holds the whole banner line.**

Otherwise the first chunk, short as it is, becomes the version, and all but one byte
of the banner line ends up in front of the first event.
-/
theorem banner_consumed_iff (banner rest : Bytes) (chunks : List Bytes)
    (hb : ¬ EOR <:+: banner) (hcat : chunks.flatten = banner ++ EOR ++ rest)
    (hne : ∀ c ∈ chunks, c ≠ []) :
    BannerConsumed banner rest chunks ↔ EOR <:+: chunks.headD [] := by
  cases chunks with
  | nil => exact absurd hcat (by simp [EOR_ne_nil])
  | cons chunk chunks =>
      obtain ⟨version, ms, left, hrun, hversion, hframed⟩ := processChunks_fresh chunk chunks
      rw [List.headD_cons]
      constructor
      · intro hconsumed
        obtain ⟨ms', left', hrun', hframed'⟩ := hconsumed
        rw [hrun] at hrun'
        injection hrun' with hp
        injection hp with _ hleft _ hms
        subst hleft
        subst hms
        by_contra hcrlf
        -- what was framed is one byte shorter than the stream, so longer than `rest`
        have hnone : find chunk EOR 0 = none := by
          unfold find
          rw [Search.findFrom_zero]
          exact (Search.find_eq_none_iff_absent EOR_ne_nil).mpr hcrlf
        have hlen := congrArg List.length (hframed.concat.symm.trans hframed'.concat)
        have htot := congrArg List.length hcat
        have hpos := List.length_pos_iff.mpr (hne chunk List.mem_cons_self)
        rw [hnone, advance_npos_two] at hlen
        simp only [List.flatten_cons, List.length_append, List.length_drop, length_EOR] at hlen htot
        omega
      · intro hcrlf
        obtain ⟨hfind, ⟨u, hu⟩, hrest⟩ := find_first_chunk hb hcat hcrlf
        rw [hfind, advance_some, hrest] at hframed
        refine ⟨ms, left, ?_, hframed⟩
        rw [hfind, substr_zero, ← hu, List.take_left] at hversion
        injection hversion with hversion
        rw [hrun, hversion]

/-- The rule at a banner line that arrives together with the start of the first event. -/
theorem banner_consumed_whole :
    BannerConsumed (ascii "AMI/1.0") (ascii "A: b\r\n\r\n")
        [ascii "AMI/1.0\r\nA:", ascii " b\r\n\r\n"]
      ↔ EOR <:+: [ascii "AMI/1.0\r\nA:", ascii " b\r\n\r\n"].headD [] :=
  banner_consumed_iff (ascii "AMI/1.0") (ascii "A: b\r\n\r\n") _ (by decide) rfl (by decide)

/-- A banner line cut after its third byte: the version is cut short, and the first event starts
with what is left of the banner, less one byte that is gone. -/
theorem banner_cut_lost :
    ¬ EOR <:+: ascii "AMI/1.0"
      ∧ [ascii "AMI", ascii "/1.0\r\nA: b\r\n\r\n"].flatten
          = ascii "AMI/1.0" ++ EOR ++ ascii "A: b\r\n\r\n"
      ∧ processChunks {} [ascii "AMI", ascii "/1.0\r\nA: b\r\n\r\n"]
          = .ok { firstEvent := false, versions := [ascii "AMI"],
                  dispatched := [ascii "MI/1.0\r\nA: b\r\n\r\n"] }
      ∧ ¬ BannerConsumed (ascii "AMI/1.0") (ascii "A: b\r\n\r\n")
          [ascii "AMI", ascii "/1.0\r\nA: b\r\n\r\n"] := by
  have hrun : processChunks {} [ascii "AMI", ascii "/1.0\r\nA: b\r\n\r\n"]
      = .ok { firstEvent := false, versions := [ascii "AMI"],
              dispatched := [ascii "MI/1.0\r\nA: b\r\n\r\n"] } := rfl
  refine ⟨by decide, rfl, hrun, ?_⟩
  intro hconsumed
  obtain ⟨ms, left, hrun', _⟩ := hconsumed
  rw [hrun] at hrun'
  injection hrun' with hp
  injection hp with _ _ hversions _
  exact absurd hversions (by decide)

end CppAmi.Proof
