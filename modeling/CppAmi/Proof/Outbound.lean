import CppAmi.Model.Catalogue
import CppAmi.Proof.Requests
import CppAmi.Proof.Wire

/-!
# What the server reads

The server cuts what it gets at blank lines, as the parser here does. Requests whose fields
are on one line each reach it as they are, one after the other, however the bytes come in
and however many have come (`requests_received`). The actions of the library are such
requests, unless a caller sets a value with an `EOR` in it (`constructed_alone_iff`).
-/

namespace CppAmi.Proof

open CppAmi KeyValDict StreamParser Framing Record TcpSocket

/-! ## One action -/

/-- The text of any action is that of its fields. -/
theorem toString_fields (a : Action) :
    a.toString = messageText (actionFields a.action a.actionId a.orderedKeys a.printed) := by
  have hprint : a.toKeyValDict.toString
      = messageText (a.orderedKeys.map fun key => (key, a.printed key)) :=
    toString_eq fun key _ => rfl
  unfold Action.toString messageText actionFields
  rw [hprint]
  simp [messageText, encodeField]

/-- An action that prints its fields on one line each is read back as it is. -/
theorem sentAlone_of_oneLine {a : Action} (h : a.OneLine) :
    SentAlone a a.orderedKeys a.printed := by
  have hfields := actionFields_one_line h.actionId
    (fun key hkey => ⟨(h.keys key hkey).1, (h.keys key hkey).2.1⟩) ⟨h.action, h.values⟩
  have hends : EndsOnce EOM a.toString := by
    rw [toString_fields]
    exact endsOnce_messageText _ (by simp [actionFields])
      (clean_of_keys fun f hf => (hfields f hf).2.1) fun f hf => (hfields f hf).2.2
  refine ⟨hends, fun chunks hcat => processChunks_cut (Framed.single EOM_ne_nil hends) hcat,
    ofPairs (actionFields a.action a.actionId a.orderedKeys a.printed), ?_, ?_, ?_, ?_, ?_⟩
  · rw [toString_fields]
    exact ofMessage_fields (messageText_ne_nil _)
      (fields_messageText (fun f hf => (hfields f hf).1) fun f hf => (hfields f hf).2.2)
  · simp [actionFields, Function.comp_def]
  · rw [getValue_ofPairs, lookup_action]
  · rw [getValue_ofPairs, lookup_actionId]
  · intro key hkey
    rw [getValue_ofPairs]
    exact lookup_key hkey (h.keys key hkey).2.2.1 (h.keys key hkey).2.2.2

/-! ## The actions of the library -/

/-- Setting listed keys one after the other does not throw. -/
theorem foldlM_setValue {a : Action} {values : List (String × Bytes)}
    (hlisted : ∀ kv ∈ values, ascii kv.1 ∈ a.orderedKeys) :
    values.foldlM (fun a kv => a.access (.setValue (ascii kv.1) kv.2)) a
      = .ok (a.accesses (values.map fun kv => .setValue (ascii kv.1) kv.2)) := by
  induction values generalizing a with
  | nil => rfl
  | cons kv values ih =>
      rcases access_cases a (.setValue (ascii kv.1) kv.2) with ⟨_, vs, hstep, _⟩ | ⟨hnot, _⟩
      · rw [List.foldlM_cons, hstep]
        refine (ih (a := { a with values := vs })
          fun kv' hkv' => hlisted kv' (List.mem_cons_of_mem _ hkv')).trans ?_
        unfold Action.accesses
        rw [List.map_cons, List.foldl_cons, hstep]
        rfl
      · exact absurd (hlisted kv List.mem_cons_self) hnot

/-- What a class of the library gives to the constructor of `Action` is plain. -/
structure PlainClass (action : String) (orderedKeys : List String)
    (values : List (String × Bytes)) : Prop where
  action : ascii action ≠ [] ∧ ¬ EOR <:+: ascii action
  keys : ∀ key ∈ orderedKeys.map ascii,
    ¬ EOR <:+: key ∧ ¬ SEP <:+: key ∧ key ≠ ascii "Action" ∧ key ≠ ascii "ActionID"
  values : ∀ kv ∈ values, ascii kv.1 ∈ orderedKeys.map ascii

/-- The rule for one class: its constructor returns, and only a value can run on. -/
theorem construct_oneLine {uuid : Bytes} {action : String} {orderedKeys : List String}
    {values : List (String × Bytes)} (huuid : UuidText uuid) (xs : List Access)
    (h : PlainClass action orderedKeys values) :
    ∃ a, Action.construct uuid action orderedKeys values = .ok a ∧ a.actionId = uuid
      ∧ (a.accesses xs).orderedKeys = a.orderedKeys
      ∧ ((a.accesses xs).OneLine
        ↔ ∀ key ∈ a.orderedKeys, ¬ EOR <:+: (a.accesses xs).printed key) := by
  unfold Action.construct Action.create
  rw [if_neg h.action.1]
  refine ⟨_, foldlM_setValue h.values, ?_⟩
  generalize (values.map fun kv => Access.setValue (ascii kv.1) kv.2) = vs
  obtain ⟨haction, hid, hkeys, _⟩ := accesses_spec
    { ofKeys (orderedKeys.map ascii) with action := ascii action, actionId := uuid } vs
  generalize Action.accesses _ vs = a at haction hid hkeys ⊢
  obtain ⟨haction', hid', hkeys', _⟩ := accesses_spec a xs
  refine ⟨hid, hkeys', fun hone => hkeys' ▸ hone.values, ?_⟩
  intro hlines
  rw [← hkeys'] at hlines
  refine ⟨?_, ?_, ?_, hlines⟩
  · rw [haction', haction]
    exact h.action.2
  · rw [hid', hid]
    exact uuidText_one_line huuid
  · rw [hkeys', hkeys]
    exact h.keys

/-- Every class of the library follows that rule. -/
theorem constructed_oneLine {uuid : Bytes} {r : Except Fault Action}
    (h : Action.Constructed uuid r) (huuid : UuidText uuid) (xs : List Access) :
    ∃ a, r = .ok a ∧ a.actionId = uuid ∧ (a.accesses xs).orderedKeys = a.orderedKeys
      ∧ ((a.accesses xs).OneLine
        ↔ ∀ key ∈ a.orderedKeys, ¬ EOR <:+: (a.accesses xs).printed key) := by
  cases h <;> exact construct_oneLine huuid xs ⟨by decide, by decide, by simp⟩

/--
**Every action of the library is one message of its own, unless a value runs on.**

Whichever class it is of, whatever it is constructed with and whatever is set afterwards:
its constructor returns, and the action is read back with its own headers if and only if no
value that it prints has an `EOR` in it.
-/
theorem constructed_alone_iff {uuid : Bytes} {r : Except Fault Action}
    (h : Action.Constructed uuid r) (huuid : UuidText uuid) (xs : List Access) :
    ∃ a, r = .ok a ∧ a.actionId = uuid
      ∧ (SentAlone (a.accesses xs) a.orderedKeys (a.accesses xs).printed
        ↔ ∀ key ∈ a.orderedKeys, ¬ EOR <:+: (a.accesses xs).printed key) := by
  obtain ⟨a, hr, hid, hkeys, hone⟩ := constructed_oneLine h huuid xs
  refine ⟨a, hr, hid, fun halone => (one_line_of_sentAlone halone).2, ?_⟩
  intro hlines
  rw [← hkeys]
  exact sentAlone_of_oneLine (hone.mpr hlines)

/-- A login whose password is set again. -/
theorem constructed_alone_login :
    ∃ a, Action.loginWith sampleUuid (ascii "admin") (ascii "old") = .ok a
      ∧ a.actionId = sampleUuid
      ∧ (SentAlone (a.accesses [.assign (ascii "Secret") (ascii "new")]) a.orderedKeys
          (a.accesses [.assign (ascii "Secret") (ascii "new")]).printed
        ↔ ∀ key ∈ a.orderedKeys,
          ¬ EOR <:+: (a.accesses [.assign (ascii "Secret") (ascii "new")]).printed key) :=
  constructed_alone_iff (.loginWith _ _) uuidText_sample _

/-! ## All requests -/

/-- What has been cut from the front of a stream stays cut when the rest comes. -/
theorem framed_front {s u rest left : Bytes} {ms ms' : List Bytes} (h : Framed EOM s ms left)
    (h' : Framed EOM (s ++ u) ms' rest) : ms <+: ms' := by
  obtain ⟨more, left', _, hmore⟩ := processChunks_framed (p := { firstEvent := false }) rfl
    (show ¬ EOM <:+: [] by decide) [left ++ u]
  rw [List.nil_append, List.flatten_singleton] at hmore
  have hall := (h.append hmore).unique EOM_ne_nil h'
  exact ⟨more, hall.1⟩

theorem framed_flatMap {α : Type} {text : α → Bytes} {order : List α}
    (h : ∀ i ∈ order, EndsOnce EOM (text i)) :
    Framed EOM (order.flatMap text) (order.map text) [] := by
  induction order with
  | nil => exact Framed.nil (show ¬ EOM <:+: [] by decide)
  | cons i order ih =>
      rw [List.flatMap_cons, List.map_cons]
      exact Framed.cons (h i List.mem_cons_self)
        (ih fun j hj => h j (List.mem_cons_of_mem _ hj))

section

variable {ι : Type} [DecidableEq ι]

/-- On a socket that takes all it is offered, the stream is the texts in the order sent. -/
theorem stream_sends {data : ι → Bytes} (hdata : ∀ i, data i ≠ []) {fd : Int} (hfd : fd ≠ -1)
    {labels : List (TcpSocket.Label ι)} {s : TcpSocket ι}
    (hrun : Run.run (step data) { sockFd := fd } labels = .ok s)
    (hall : Run.Along (step data) (AcceptsAll data) { sockFd := fd } labels) :
    Accounted data s ∧ s.stream = (s.sends.map Prod.fst).flatMap data := by
  have haccount : Accounted data s ∧ s.sockFd ≠ -1 :=
    Run.invariant_of_step (fun s l s' h hstep => accounted_step hdata h.2 h.1 hstep)
      ⟨accounted_init fd, hfd⟩ hrun
  have hwhole : AllWhole data s :=
    Run.invariant (fun s l s' hs hall hstep => allWhole_step hstep hs hall)
      (by intro sent hsent; cases hsent) hall hrun
  refine ⟨haccount.1, ?_⟩
  rw [haccount.1.stream, flatMap_whole hwhole]

/--
**The server reads the requests that were sent, whole and in order.**

Any number of calls write actions whose fields are on one line each, in any order, on a
connected socket that takes what it is offered. A call has returned if and only if it is in
the order of the sends, where no call is twice. Whatever part of the stream has arrived, and
in whatever chunks: what the server has cut from it are the first of these requests, and when
all of it has arrived, all of them, with nothing left over. Each is read with the action and
the ActionID of its call.
-/
theorem requests_received (requests : ι → Request)
    (hone : ∀ i, (requests i).action.OneLine) {fd : Int} (hfd : fd ≠ -1)
    {labels : List (TcpSocket.Label ι)} {s : TcpSocket ι}
    (hrun : Run.run (step fun i => (requests i).data) { sockFd := fd } labels = .ok s)
    (hall : Run.Along (step fun i => (requests i).data) (AcceptsAll fun i => (requests i).data)
      { sockFd := fd } labels) :
    (s.sends.map Prod.fst).Nodup ∧ (∀ i, i ∈ s.sends.map Prod.fst ↔ s.pc i = .returned)
      ∧ (∀ chunks, chunks.flatten <+: s.stream →
        ∃ n left, processChunks { firstEvent := false } chunks
          = .ok { firstEvent := false, eventBuf := left,
                  dispatched := ((s.sends.map Prod.fst).take n).map fun i => (requests i).data }
            ∧ (chunks.flatten = s.stream → n = s.sends.length ∧ left = []))
      ∧ ∀ i, ∃ d, KeyValDict.ofMessage (requests i).data = .ok d
        ∧ d.getValue (ascii "Action") = some (requests i).action.action
        ∧ d.getValue (ascii "ActionID") = some (requests i).action.actionId := by
  have htext : ∀ i, (requests i).data = (requests i).action.toString := by
    intro i
    cases requests i <;> rfl
  have halone : ∀ i, SentAlone (requests i).action _ _ :=
    fun i => sentAlone_of_oneLine (hone i)
  obtain ⟨haccount, hstream⟩ := stream_sends (fun i => data_ne_nil (requests i)) hfd hrun hall
  have hframed : Framed EOM s.stream
      ((s.sends.map Prod.fst).map fun i => (requests i).data) [] := by
    rw [hstream]
    refine framed_flatMap ?_
    intro i _
    rw [htext i]
    exact (halone i).ends
  refine ⟨haccount.once, haccount.returned, ?_, ?_⟩
  · intro chunks hprefix
    obtain ⟨ms, left, hchunks, hms⟩ := processChunks_framed (p := { firstEvent := false }) rfl
      (show ¬ EOM <:+: [] by decide) chunks
    rw [List.nil_append] at hms
    obtain ⟨u, hu⟩ := hprefix
    have hfirst : ms <+: (s.sends.map Prod.fst).map fun i => (requests i).data :=
      framed_front hms (hu ▸ hframed)
    refine ⟨ms.length, left, ?_, ?_⟩
    · rw [List.map_take, ← List.prefix_iff_eq_take.mp hfirst]
      exact hchunks
    · intro hwhole
      rw [hwhole] at hms
      obtain ⟨hall, hleft⟩ := hms.unique EOM_ne_nil hframed
      refine ⟨?_, hleft⟩
      rw [hall, List.length_map, List.length_map]
  · intro i
    obtain ⟨d, hread, _, haction, hid, _⟩ := (halone i).parsed
    exact ⟨d, htext i ▸ hread, haction, hid⟩

theorem twoPings_oneLine (i : Bool) : (twoPings i).action.OneLine := by
  cases i with
  | true => exact ⟨by decide, by decide, by simp [twoPings, Request.action, ofKeys],
      by simp [twoPings, Request.action, ofKeys]⟩
  | false => exact ⟨by decide, by decide, by simp [twoPings, Request.action, ofKeys],
      by simp [twoPings, Request.action, ofKeys]⟩

theorem requests_received_pings :
    ∃ s, Run.run (step fun i => (twoPings i).data) { sockFd := 3 }
        [.lock true, .send true 29, .lock false, .send false 29] = .ok s
      ∧ (s.sends.map Prod.fst).Nodup ∧ (∀ i, i ∈ s.sends.map Prod.fst ↔ s.pc i = .returned)
      ∧ (∀ chunks, chunks.flatten <+: s.stream →
        ∃ n left, processChunks { firstEvent := false } chunks
          = .ok { firstEvent := false, eventBuf := left,
                  dispatched := ((s.sends.map Prod.fst).take n).map fun i => (twoPings i).data }
            ∧ (chunks.flatten = s.stream → n = s.sends.length ∧ left = []))
      ∧ ∀ i, ∃ d, KeyValDict.ofMessage (twoPings i).data = .ok d
        ∧ d.getValue (ascii "Action") = some (twoPings i).action.action
        ∧ d.getValue (ascii "ActionID") = some (twoPings i).action.actionId := by
  have hall : Run.Along (step fun i => (twoPings i).data) (AcceptsAll fun i => (twoPings i).data)
      { sockFd := 3 } [.lock true, .send true 29, .lock false, .send false 29] :=
    fun _ _ => ⟨trivial, fun _ _ => ⟨rfl, fun _ _ => ⟨trivial, fun _ _ => ⟨rfl, trivial⟩⟩⟩⟩
  exact ⟨_, rfl, requests_received twoPings twoPings_oneLine (by decide) rfl hall⟩

end

end CppAmi.Proof
