import CppAmi.Proof.Assembly
import CppAmi.Proof.Conservation
import CppAmi.Proof.Parse

/-!
# The text of a list reads as the list

Printing changes what a message looks like: what stood behind the last field is gone,
and a key that came up again has its first value. It does not put a blank line where
there was none, since the keys are as they were and the framer let them through
(`received_reprints`). So the text of a list is cut where its messages end, and each
message is read as it was (`list_text_rereads`).
-/

namespace CppAmi.Proof

open CppAmi EventDispatcher KeyValDict StreamParser Framing Record

/-! ## One message -/

/-- The printed fields have the keys of the fields. -/
theorem clean_printedFields {fs : List (Bytes × Bytes)} (h : Clean EOR fs) :
    Clean EOR (printedFields fs) where
  keys := by
    intro f hf
    obtain ⟨g, hg, rfl⟩ := List.mem_map.mp hf
    exact h.keys g hg
  junctions := by
    intro f hf
    unfold printedFields at hf
    rw [← List.map_tail] at hf
    obtain ⟨g, hg, rfl⟩ := List.mem_map.mp hf
    exact h.junctions g hg

/-- **A message from the network is printed as one message, and reads as it was.** -/
theorem received_reprints {m : Event} (h : Received m) (ha : m.actionId ≠ none) :
    EndsOnce EOM m.toString ∧ ofMessage m.toString = .ok m := by
  obtain ⟨chunks, p, buf, hrun, hbuf, hread⟩ := h
  obtain ⟨p', hrun', hends⟩ := processChunks_dispatched chunks
  rw [hrun] at hrun'
  cases hrun'
  have hend := hends buf hbuf
  have hclosed : EOR <:+ buf := (show EOR <:+ EOM by decide).trans hend.suffix
  obtain ⟨fs, rest, hfields, hfs⟩ := exists_fields_of_suffix hclosed
  obtain rfl : m = ofPairs fs := Except.ok.inj (hread.symm.trans hfs)
  refine ⟨?_, ofMessage_toString hfields⟩
  have hne : printedFields fs ≠ [] := by
    intro hnil
    have : fs = [] := List.map_eq_nil_iff.mp hnil
    subst this
    exact ha (getValue_ofPairs [] _)
  have hclean := clean_printedFields (clean_of_endsOnce delimiters (EOM_eq ▸ hend) hfields.concat)
  rw [toString_ofPairs, EOM_eq]
  exact endsOnce_messageText _ hne hclean fun f hf => hfields.vals f (printedFields_mem hf)

/-- A message without blank lines can come from the network. -/
theorem received_ofPairs (fs : List (Bytes × Bytes)) (hne : fs ≠ [])
    (hkeys : ∀ f ∈ fs, ¬ SEP <:+: f.1) (hvals : ∀ f ∈ fs, ¬ EOR <:+: f.2)
    (hclean : Clean EOR fs) : Received (ofPairs fs) := by
  obtain ⟨version, ms, rest, hrun, _, hframed⟩ := processChunks_fresh EOR [messageText fs]
  have hdrop : EOR.drop (advance (find EOR EOR 0) 2) = [] := by decide
  rw [hdrop, List.nil_append, List.flatten_cons, List.flatten_nil, List.append_nil] at hframed
  -- behind an empty banner the text is one message
  have hone := Framed.single EOM_ne_nil (endsOnce_messageText fs hne hclean hvals)
  obtain ⟨rfl, rfl⟩ := hframed.unique EOM_ne_nil hone
  exact ⟨_, _, messageText fs, hrun, List.mem_singleton_self _,
    ofMessage_fields (messageText_ne_nil fs) (fields_messageText hkeys hvals)⟩

/-! ## What a list is made of -/

/-- These messages came in in this order, and each names an ActionID. -/
structure Fed (seen ms : List Event) : Prop where
  order : ms.Sublist seen
  named : ∀ m ∈ ms, m.actionId ≠ none

/-- Every response in the slots, and every reaction that was delivered, is made of what came in. -/
structure RouterFed (r : Router) (seen : List Event) : Prop where
  slots : ∀ a f p, r.slot a = some (f, p) → Fed seen p.gathered
  shared : ∀ result ∈ r.shared, Fed seen result.messages

theorem Fed.nil (seen : List Event) : Fed seen [] := ⟨List.nil_sublist seen, by simp⟩

theorem Fed.mono {seen ms : List Event} (h : Fed seen ms) (more : List Event) :
    Fed (seen ++ more) ms :=
  ⟨h.order.trans (List.sublist_append_left seen more), h.named⟩

theorem Fed.snoc {seen ms : List Event} (h : Fed seen ms) {m : Event} (hm : m.actionId ≠ none) :
    Fed (seen ++ [m]) (ms ++ [m]) where
  order := h.order.append (List.Sublist.refl [m])
  named := by
    intro x hx
    rcases List.mem_append.mp hx with hx | hx
    · exact h.named x hx
    · rwa [List.mem_singleton.mp hx]

theorem RouterFed.mono {r : Router} {seen : List Event} (h : RouterFed r seen)
    (more : List Event) : RouterFed r (seen ++ more) where
  slots := by
    intro a f p hs
    exact (h.slots a f p hs).mono more
  shared := by
    intro result hmem
    exact (h.shared result hmem).mono more

/-- **A step only uses what came in, in the order it came.** -/
theorem routerFed_move {r r' : Router} {op : Op} (hinv : RouterInv r) (hmove : Router.Move r op r')
    {seen : List Event} (h : RouterFed r seen) :
    RouterFed r' (seen ++ (messageOf op).toList) where
  slots := by
    intro a f p' hs'
    rcases slot_cases hinv hmove hs' with hold | ⟨_, _, rfl⟩ | ⟨m, p, rfl, hm, hs, rfl, hun⟩
    · exact (h.slots a f p' hold).mono _
    · exact Fed.nil _
    · have hfed := (h.slots a f p hs).snoc (m := m) (by rw [hm]; simp)
      rcases gathered_receive (hinv.unfinished a f p hs) hm with ⟨x, hx, _⟩ | ⟨_, hgath⟩
      · rw [hx] at hun
        exact hun.elim
      · rw [hgath]
        exact hfed
  shared := by
    intro result hmem
    -- only a reaction has messages
    cases result with
    | value reaction =>
        cases reaction with
        | none => exact Fed.nil _
        | some reaction =>
            rcases reaction_origin hinv hmove hmem with hold | ⟨m, a, f, p, rfl, hm, hs, hdone⟩
            · exact (h.shared _ hold).mono _
            · have hfed := (h.slots a f p hs).snoc (m := m) (by rw [hm]; simp)
              rcases gathered_receive (hinv.unfinished a f p hs) hm with ⟨x, hx, hmsgs⟩ | ⟨hun, _⟩
              · rw [hdone] at hx
                cases hx
                show Fed _ reaction.messages
                rw [hmsgs]
                exact hfed
              · rw [hdone] at hun
                exact hun.elim
    | pending => exact Fed.nil _
    | exception err => exact Fed.nil _

/-- **The run lemma:** the responses are made of what came in during the run. -/
theorem run_fed {d d' : EventDispatcher} (h : Sound d) {seen : List Event}
    (hfed : RouterFed (abs d) seen) {ops : List Op}
    (hrun : Run.run EventDispatcher.apply d ops = .ok d') :
    RouterFed (abs d') (seen ++ messages ops) := by
  induction ops generalizing d seen with
  | nil =>
      cases hrun
      exact hfed.mono _
  | cons op ops ih =>
      obtain ⟨d₁, hstep, hrest⟩ := Run.run_cons_eq_ok.mp hrun
      obtain ⟨hsound, hmove⟩ := h.step hstep
      have hfed₁ := ih hsound (routerFed_move h.inv hmove hfed) hrest
      have hcat : messages (op :: ops) = (messageOf op).toList ++ messages ops := by
        unfold messages
        rw [List.filterMap_cons]
        cases messageOf op <;> rfl
      rwa [hcat, ← List.append_assoc]

/-- The messages of a list came in in the order they have in it, and name an ActionID. -/
theorem assembled_fed {ops : List Op} {d : EventDispatcher} (hrun : runOps ops = .ok d)
    {l : EventList} (hl : d.Assembled l) : Fed (messages ops) (listMessages l) := by
  have hinit : RouterFed (abs {}) [] := ⟨fun a f p hs => by simp [abs] at hs, by simp⟩
  have hfed := run_fed sound_init hinit hrun
  rw [List.nil_append] at hfed
  rcases hl with ⟨a, ha⟩ | hl
  · obtain ⟨⟨f, hf⟩, _⟩ := (runOps_sound hrun).wf.owned a _ ha
    have hslot : (abs d).slot a = some (f, .building l) := by
      rw [abs_slot_some hf, absProgress, ha]
    exact hfed.slots a f _ hslot
  · exact hfed.shared _ hl

/-! ## The text of a list -/

theorem toString_eq_flatten (l : EventList) :
    l.toString = ((listMessages l).map KeyValDict.toString).flatten := by
  unfold EventList.toString listMessages Reaction.messages
  cases ht : l.tail with
  | none => simp [ht, List.flatMap_def]
  | some tail => simp [ht, List.flatMap_def]

/--
**The text of a list reads as the list.**

Whatever run of the dispatcher put the list together from messages of the network, and
however its text is cut into chunks: the framer cuts it into the head, the members in
the order they arrived, and the tail, nothing is left over, and each is parsed as the
message it was.
-/
theorem list_text_rereads (ops : List Op) (d : EventDispatcher) (hrun : runOps ops = .ok d)
    (hops : ∀ m ∈ messages ops, Received m) (l : EventList) (hl : d.Assembled l)
    (chunks : List Bytes) (hcat : chunks.flatten = l.toString) :
    processChunks { firstEvent := false } chunks
        = .ok { firstEvent := false,
                dispatched := (listMessages l).map KeyValDict.toString }
      ∧ (listMessages l).Sublist (messages ops)
      ∧ ∀ m ∈ listMessages l, ofMessage m.toString = .ok m := by
  have hfed := assembled_fed hrun hl
  have hprint : ∀ m ∈ listMessages l, EndsOnce EOM m.toString ∧ ofMessage m.toString = .ok m :=
    fun m hm => received_reprints (hops m (hfed.order.subset hm)) (hfed.named m hm)
  refine ⟨processChunks_cut ?_ hcat, hfed.order, fun m hm => (hprint m hm).2⟩
  -- the messages are the cut of the text
  refine ⟨by rw [toString_eq_flatten, List.append_nil], ?_, by decide⟩
  intro text htext
  obtain ⟨m, hm, rfl⟩ := List.mem_map.mp htext
  exact (hprint m hm).1

/-- A list of a head, a member and a tail, with its text cut in two. -/
theorem list_text_rereads_sample :
    ∃ d, runOps [.getEventPipe (ascii "7"), .dispatchEvent Sample.head,
        .dispatchEvent Sample.member, .dispatchEvent Sample.tail] = .ok d
      ∧ d.Assembled { head := Sample.head, tail := some Sample.tail, events := [Sample.member] }
      ∧ processChunks { firstEvent := false }
          [Sample.head.toString ++ ascii "Ev",
            ascii "ent: Status\r\nActionID: 7\r\n\r\n" ++ Sample.tail.toString]
        = .ok { firstEvent := false,
                dispatched := [Sample.head.toString, Sample.member.toString,
                  Sample.tail.toString] } := by
  obtain ⟨d, hrun, hfuture⟩ := @pipe_outcome [] (ascii "7") {} rfl (by simp)
    [.dispatchEvent Sample.head, .dispatchEvent Sample.member, .dispatchEvent Sample.tail]
  have hlist : d.Assembled
      { head := Sample.head, tail := some Sample.tail, events := [Sample.member] } :=
    Or.inr (List.mem_of_getElem? hfuture)
  refine ⟨d, hrun, hlist, ?_⟩
  refine (list_text_rereads _ d hrun ?_ _ hlist _ ?_).1
  · intro m hm
    have hcases : Sample.head = m ∨ Sample.member = m ∨ Sample.tail = m := by
      simpa [messages, messageOf] using hm
    rcases hcases with rfl | rfl | rfl
    · exact received_ofPairs [(ascii "Response", ascii "Success"),
        (ascii "ActionID", ascii "7"), (ascii "EventList", ascii "start")]
        (by decide) (by decide) (by decide) ⟨by decide, by decide⟩
    · exact received_ofPairs [(ascii "Event", ascii "Status"), (ascii "ActionID", ascii "7")]
        (by decide) (by decide) (by decide) ⟨by decide, by decide⟩
    · exact received_ofPairs [(ascii "Event", ascii "StatusComplete"),
        (ascii "ActionID", ascii "7"), (ascii "EventList", ascii "Complete")]
        (by decide) (by decide) (by decide) ⟨by decide, by decide⟩
  · rfl

end CppAmi.Proof
