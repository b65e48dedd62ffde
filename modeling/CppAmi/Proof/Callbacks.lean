import CppAmi.Proof.Sessions
import CppAmi.Spec.Callbacks

/-!
# What the callbacks are called with

`dispatch_handler` holds the mutex from its first callback to its last, so a message is
handed to the callbacks as if that were one step (`callbacks_heard`): each is called with
exactly the messages of the time it was there, once each and in order, and with none after
`remove_callback` has returned (`removed_not_called`).

For the same reason a callback must not call the connection. One that adds or removes a
callback waits for itself (`nested_lock_hangs`), and one that calls `invoke` waits for an
answer that only the thread it runs in could take (`nested_invoke_hangs`). These two are the
only ways for the handler to stand still with messages before it (`handler_stuck_iff`).
-/

namespace CppAmi.Proof

open CppAmi EventDispatcher World Callbacks

variable {ι κ : Type} [DecidableEq ι]

/-! ## What one turn does -/

/-- Everything one turn can do. -/
inductive Served (calls : ι → Call) (s : Callbacks ι κ) :
    Callbacks.Label ι κ → Callbacks ι κ → Prop where
  | world {l : CppAmi.Label ι} {w : World ι} (hfree : l = .dispatch → s.Free)
      (hw : s.world.step calls l = .ok w) : Served calls s (.world l) { s with world := w }
  | added {id : Bytes} {callback : κ} (hidle : s.handler = .idle) :
      Served calls s (.addCallback id callback)
        { s with callbacks := s.callbacks.emplace id callback }
  | removed {key : Bytes} (hidle : s.handler = .idle) :
      Served calls s (.removeCallback key) { s with callbacks := s.callbacks.erase key }
  | locked {order : List Bytes} {dict : Event} (hidle : s.handler = .idle)
      (hdict : s.world.dispatcher.notified[s.handled]? = some dict)
      (horder : order.Perm s.callbacks.keys) :
      Served calls s (.lock order)
        { s with handler := .looping dict (s.entries order), handled := s.handled + 1 }
  | called {dict : Event} {key : Bytes} {callback : κ} {rest : List (Bytes × κ)}
      (hloop : s.handler = .looping dict ((key, callback) :: rest)) :
      Served calls s .call
        { s with
          handler := .calling dict rest none,
          log := s.log ++ [{ key := key, callback := callback, dict := dict,
                             round := s.handled - 1 }] }
  | nested {dict : Event} {rest : List (Bytes × κ)} {nested : Nested ι}
      (hcall : s.handler = .calling dict rest none)
      (hstart : ∀ i, nested = .invoke i → s.world.pc i = .start) :
      Served calls s (.nest nested) { s with handler := .calling dict rest (some nested) }
  | nestedReturned {dict : Event} {rest : List (Bytes × κ)} {i : ι}
      (hcall : s.handler = .calling dict rest (some (.invoke i)))
      (hend : (∃ r, s.world.pc i = .returned r) ∨ (∃ err, s.world.pc i = .threw err)
        ∨ ∃ err, s.world.pc i = .writeThrew err) :
      Served calls s .nestedReturns { s with handler := .calling dict rest none }
  | left {dict : Event} {rest : List (Bytes × κ)} (hcall : s.handler = .calling dict rest none) :
      Served calls s .leave { s with handler := .looping dict rest }
  | unlocked {dict : Event} (hloop : s.handler = .looping dict []) :
      Served calls s .unlock { s with handler := .idle }

theorem turn_eq_ok {calls : ι → Call} {s s' : Callbacks ι κ} {l : CppAmi.Label ι}
    (h : s.turn calls l = .ok s') :
    ∃ w, s.world.step calls l = .ok w ∧ s' = { s with world := w } := by
  obtain ⟨w, hw, hs⟩ := Run.bind_eq_ok h
  cases hs
  exact ⟨w, hw, rfl⟩

theorem step_served {calls : ι → Call} {s s' : Callbacks ι κ} {l : Callbacks.Label ι κ}
    (h : s.step calls l = .ok s') : Served calls s l s' := by
  cases l with
  | world l =>
      by_cases hl : l = .dispatch
      · subst hl
        obtain ⟨hfree, hturn⟩ := Run.ite_eq_ok h
        obtain ⟨w, hw, rfl⟩ := turn_eq_ok hturn
        exact .world (fun _ => hfree) hw
      · have hturn : s.turn calls l = .ok s' := by
          cases l with
          | dispatch => exact absurd rfl hl
          | _ => exact h
        obtain ⟨w, hw, rfl⟩ := turn_eq_ok hturn
        exact .world (fun hd => absurd hd hl) hw
  | addCallback id callback =>
      simp only [Callbacks.step] at h
      split at h
      · cases h
        exact .added ‹_›
      · cases h
  | removeCallback key =>
      simp only [Callbacks.step] at h
      split at h
      · cases h
        exact .removed ‹_›
      · cases h
  | lock order =>
      simp only [Callbacks.step] at h
      split at h
      · obtain ⟨horder, hs⟩ := Run.ite_eq_ok h
        cases hs
        exact .locked ‹_› ‹_› horder
      · cases h
  | call =>
      simp only [Callbacks.step] at h
      split at h
      · cases h
        exact .called ‹_›
      · cases h
  | nest nested =>
      simp only [Callbacks.step] at h
      split at h
      · rename_i dict rest i hcall
        split at h
        · cases h
          refine .nested hcall ?_
          intro j hj
          cases hj
          assumption
        · cases h
      · rename_i hcall
        cases h
        exact .nested hcall (by simp)
      · cases h
  | nestedReturns =>
      simp only [Callbacks.step] at h
      split at h
      · rename_i hcall
        split at h
        · cases h
          exact .nestedReturned hcall (.inl ⟨_, ‹_›⟩)
        · cases h
          exact .nestedReturned hcall (.inr (.inl ⟨_, ‹_›⟩))
        · cases h
          exact .nestedReturned hcall (.inr (.inr ⟨_, ‹_›⟩))
        · cases h
      · cases h
  | nestedThrows =>
      simp only [Callbacks.step] at h
      split at h
      · split at h <;> cases h
      · cases h
  | leave =>
      simp only [Callbacks.step] at h
      split at h
      · cases h
        exact .left ‹_›
      · cases h
  | unlock =>
      simp only [Callbacks.step] at h
      split at h
      · cases h
        exact .unlocked ‹_›
      · cases h

/-! ## What is heard under a key -/

section

variable {calls : ι → Call} {s s' : Callbacks ι κ} {l : Callbacks.Label ι κ} {key : Bytes}

/-- Of the entries in some order, one key has its own once. -/
theorem filterMap_once {α : Type} (g : Bytes → Option α) {order : List Bytes} (key : Bytes)
    (hnodup : order.Nodup) (habsent : key ∉ order → g key = none) :
    order.filterMap (fun k => if k = key then g k else none) = (g key).toList := by
  induction order with
  | nil =>
      rw [habsent List.not_mem_nil]
      rfl
  | cons k order ih =>
      obtain ⟨hk, hnodup⟩ := List.nodup_cons.mp hnodup
      by_cases heq : k = key
      · subst heq
        have hrest : order.filterMap (fun k' => if k' = k then g k' else none) = [] := by
          rw [List.filterMap_eq_nil_iff]
          intro k' hk'
          rw [if_neg]
          rintro rfl
          exact hk hk'
        rw [List.filterMap_cons, hrest, if_pos rfl]
        cases g k <;> rfl
      · rw [List.filterMap_cons, if_neg heq]
        refine ih hnodup ?_
        intro hnot
        exact habsent (by simp [Ne.symm heq, hnot])

omit [DecidableEq ι] in
theorem entries_filter {order : List Bytes} (horder : order.Perm s.callbacks.keys) :
    (s.entries order).filter (fun entry => entry.1 = key)
      = ((s.callbacks.lookup key).map fun callback => (key, callback)).toList := by
  have hfilter : (s.entries order).filter (fun entry => entry.1 = key)
      = order.filterMap fun k => if k = key then
        (s.callbacks.lookup k).map fun callback => (k, callback) else none := by
    unfold Callbacks.entries
    rw [List.filter_filterMap]
    congr 1
    funext k
    cases s.callbacks.lookup k with
    | none => simp
    | some callback => by_cases hk : k = key <;> simp [hk]
  rw [hfilter]
  refine filterMap_once _ key (horder.nodup_iff.mpr s.callbacks.keys_nodup) ?_
  intro hnot
  rw [horder.mem_iff] at hnot
  rw [AList.lookup_eq_none.mpr hnot]
  rfl

/-- A key and the one who listens under it. -/
structure Hears (key : Bytes) (s : Callbacks ι κ) (l : Listener κ) : Prop where
  callback : s.callbacks.lookup key = l.callback
  round : s.handled = l.round
  heard : callsUnder key (s.log ++ s.owed) = l.heard

theorem callsUnder_append (key : Bytes) (log more : List (Invocation κ)) :
    callsUnder key (log ++ more) = callsUnder key log ++ callsUnder key more := by
  unfold callsUnder
  rw [List.filter_append, List.map_append]

theorem callsUnder_entries (dict : Event) (round : Nat) (rest : List (Bytes × κ)) :
    callsUnder key (rest.map fun entry =>
        { key := entry.1, callback := entry.2, dict := dict, round := round })
      = (rest.filter fun entry => entry.1 = key).map fun entry => (entry.2, round) := by
  unfold callsUnder
  rw [List.filter_map, List.map_map]
  rfl

/-- **A turn is to a listener what it is to the callbacks.** -/
theorem hears_served {t : Listener κ} (h : Hears key s t) (hs : Served calls s l s') :
    Hears key s' (l.op.elim t (Listener.step key t)) := by
  obtain ⟨hcallback, hround, hheard⟩ := h
  cases hs with
  | world hfree hw => exact ⟨hcallback, hround, hheard⟩
  | @added id callback hidle =>
      show Hears key _
        (if id = key then { t with callback := t.callback.or (some callback) } else t)
      by_cases hid : id = key
      · rw [if_pos hid]
        refine ⟨?_, hround, hheard⟩
        show (UMap.emplace s.callbacks id callback).lookup key = _
        rw [emplace_lookup, hcallback, if_pos hid.symm]
      · rw [if_neg hid]
        refine ⟨?_, hround, hheard⟩
        show (UMap.emplace s.callbacks id callback).lookup key = _
        rw [emplace_lookup, hcallback, if_neg (Ne.symm hid), Option.or_none]
  | @removed key' hidle =>
      show Hears key _ (if key' = key then { t with callback := none } else t)
      by_cases hkey : key' = key
      · rw [if_pos hkey]
        refine ⟨?_, hround, hheard⟩
        show (s.callbacks.erase key').lookup key = _
        rw [lookup_erase_ite, if_pos hkey.symm]
      · rw [if_neg hkey]
        refine ⟨?_, hround, hheard⟩
        show (s.callbacks.erase key').lookup key = _
        rw [lookup_erase_ite, if_neg (Ne.symm hkey), hcallback]
  | @locked order dict hidle hdict horder =>
      have hfree : s.owed = [] := by
        unfold Callbacks.owed
        rw [hidle]
      rw [hfree, List.append_nil] at hheard
      refine ⟨hcallback, by rw [hround]; rfl, ?_⟩
      show callsUnder key (s.log ++ (s.entries order).map fun entry =>
          { key := entry.1, callback := entry.2, dict := dict, round := s.handled + 1 - 1 }) = _
      rw [callsUnder_append, callsUnder_entries, entries_filter horder, hheard, hcallback,
        Nat.add_sub_cancel, hround]
      show _ = t.heard ++ _
      cases t.callback <;> rfl
  | @called dict key' callback rest hloop =>
      refine ⟨hcallback, hround, Eq.trans ?_ hheard⟩
      have howed : s.owed = { key := key', callback := callback, dict := dict,
                              round := s.handled - 1 } :: rest.map fun entry =>
          { key := entry.1, callback := entry.2, dict := dict, round := s.handled - 1 } := by
        unfold Callbacks.owed
        rw [hloop]
        rfl
      rw [howed, List.append_cons s.log _ (rest.map _)]
      rfl
  | nested hcall hstart =>
      refine ⟨hcallback, hround, Eq.trans ?_ hheard⟩
      unfold Callbacks.owed
      rw [hcall]
  | nestedReturned hcall hend =>
      refine ⟨hcallback, hround, Eq.trans ?_ hheard⟩
      unfold Callbacks.owed
      rw [hcall]
  | left hcall =>
      refine ⟨hcallback, hround, Eq.trans ?_ hheard⟩
      unfold Callbacks.owed
      rw [hcall]
  | unlocked hloop =>
      refine ⟨hcallback, hround, Eq.trans ?_ hheard⟩
      unfold Callbacks.owed
      rw [hloop]
      rfl

/-! ## What the handler was handed -/

/-- What the handler calls with, and has still to call with, is what it was handed. -/
structure Handed (s : Callbacks ι κ) : Prop where
  sound : Sound s.world.dispatcher
  dicts : ∀ v ∈ s.log ++ s.owed, s.world.dispatcher.notified[v.round]? = some v.dict

theorem Turn.notified {w w' : World ι} {l : CppAmi.Label ι} (h : Turn calls w l w')
    (hs : Sound w.dispatcher) : w.dispatcher.notified <+: w'.dispatcher.notified := by
  rcases h.dispatcher with ⟨_, hd⟩ | ⟨op, _, hd⟩
  · rw [hd]
  · rw [notified_step (hs.step hd).2]
    exact List.prefix_append _ _

theorem handed_served (h : Handed s) (hs : Served calls s l s') : Handed s' := by
  obtain ⟨hsound, hdicts⟩ := h
  cases hs with
  | world hfree hw =>
      have hturn := step_turn hw
      refine ⟨hturn.sound hsound, ?_⟩
      intro v hv
      have hold := hdicts v hv
      obtain ⟨hlt, _⟩ := List.getElem?_eq_some_iff.mp hold
      obtain ⟨more, hmore⟩ := hturn.notified hsound
      show _ = some v.dict
      rw [← hmore, List.getElem?_append_left hlt, hold]
  | added hidle => exact ⟨hsound, hdicts⟩
  | removed hidle => exact ⟨hsound, hdicts⟩
  | @locked order dict hidle hdict horder =>
      refine ⟨hsound, ?_⟩
      intro v hv
      rcases List.mem_append.mp hv with hv | hv
      · exact hdicts v (List.mem_append_left _ hv)
      · obtain ⟨entry, _, rfl⟩ := List.mem_map.mp hv
        exact hdict
  | @called dict key' callback rest hloop =>
      refine ⟨hsound, ?_⟩
      intro v hv
      refine hdicts v ?_
      unfold Callbacks.owed
      rw [hloop]
      show v ∈ s.log ++ _ :: rest.map _
      rw [List.append_cons]
      exact hv
  | nested hcall hstart =>
      refine ⟨hsound, ?_⟩
      unfold Callbacks.owed at hdicts ⊢
      rw [hcall] at hdicts
      exact hdicts
  | nestedReturned hcall hend =>
      refine ⟨hsound, ?_⟩
      unfold Callbacks.owed at hdicts ⊢
      rw [hcall] at hdicts
      exact hdicts
  | left hcall =>
      refine ⟨hsound, ?_⟩
      unfold Callbacks.owed at hdicts ⊢
      rw [hcall] at hdicts
      exact hdicts
  | unlocked hloop =>
      refine ⟨hsound, ?_⟩
      intro v hv
      exact hdicts v (List.mem_append_left _ (by simpa [Callbacks.owed] using hv))

omit [DecidableEq ι] in
theorem hears_init (key : Bytes) : Hears key ({} : Callbacks ι κ) {} where
  callback := rfl
  round := rfl
  heard := rfl

omit [DecidableEq ι] in
theorem handed_init : Handed ({} : Callbacks ι κ) where
  sound := sound_init
  dicts := by
    intro v hv
    cases hv

/-- What a key has heard is what one hears to whom adding, removing and a message are each one
step. -/
theorem hears_run {labels : List (Callbacks.Label ι κ)}
    (hrun : Callbacks.runLabels calls labels = .ok s) (key : Bytes) :
    Hears key s (Listener.of key (labels.filterMap Label.op)) :=
  Run.run_simulate (fun _ _ _ _ hR hstep => hears_served hR (step_served hstep))
    (hears_init key) hrun

/--
**A message is handed to the callbacks in one step.**

Under each key the calls made, and those the loop has still to make, are what a listener
hears to whom adding, removing and a message each happen at once. Each call is made with
the message of its round.
-/
theorem callbacks_heard {labels : List (Callbacks.Label ι κ)}
    (hrun : Callbacks.runLabels calls labels = .ok s) (key : Bytes) :
    callsUnder key (s.log ++ s.owed) = (Listener.of key (labels.filterMap Label.op)).heard
      ∧ ∀ v ∈ s.log ++ s.owed, s.world.dispatcher.notified[v.round]? = some v.dict := by
  have hhanded : Handed s := Run.invariant_of_step
    (fun _ _ _ h hstep => handed_served h (step_served hstep)) handed_init hrun
  exact ⟨(hears_run hrun key).heard, hhanded.dicts⟩

namespace Sample

/-- A callback is added and called. -/
def heard : List (Callbacks.Label Unit Nat) :=
  [.addCallback (ascii "k") 1, .world (.emit none hangup), .world .dispatch, .lock [ascii "k"],
    .call]

/-- The call that a callback may make. -/
def only : Unit → Call := fun _ => { action := ping "7" }

end Sample

theorem callbacks_heard_once :
    ∃ s, Callbacks.runLabels Sample.only Sample.heard = .ok s
      ∧ callsUnder (ascii "k") (s.log ++ s.owed)
        = (Listener.of (ascii "k") (Sample.heard.filterMap Label.op)).heard
      ∧ ∀ v ∈ s.log ++ s.owed, s.world.dispatcher.notified[v.round]? = some v.dict := by
  have hrun : ∃ s, Callbacks.runLabels Sample.only Sample.heard = .ok s := ⟨_, rfl⟩
  obtain ⟨s, hrun⟩ := hrun
  exact ⟨s, hrun, callbacks_heard hrun _⟩

/-! ## After `remove_callback` -/

theorem Served.log (h : Served calls s l s') : s.log <+: s'.log := by
  cases h with
  | called hloop => exact List.prefix_append _ _
  | _ => exact List.prefix_refl _

/-- One who listens under a key without a callback hears nothing until one is added. -/
theorem listener_silent {t : Listener κ} (hnone : t.callback = none)
    {ops : List (CallbackOp κ)} (hadd : ∀ callback, .add key callback ∉ ops) :
    (ops.foldl (Listener.step key) t).heard = t.heard := by
  induction ops generalizing t with
  | nil => rfl
  | cons op ops ih =>
      have hrest : ∀ callback, CallbackOp.add key callback ∉ ops :=
        fun callback hmem => hadd callback (List.mem_cons_of_mem _ hmem)
      have hstep : (Listener.step key t op).callback = none
          ∧ (Listener.step key t op).heard = t.heard := by
        cases op with
        | add id callback =>
            have hid : id ≠ key := by
              rintro rfl
              exact hadd callback List.mem_cons_self
            rw [Listener.step, if_neg hid]
            exact ⟨hnone, rfl⟩
        | remove key' =>
            rw [Listener.step]
            split
            · exact ⟨rfl, rfl⟩
            · exact ⟨hnone, rfl⟩
        | broadcast =>
            refine ⟨hnone, ?_⟩
            show t.heard ++ _ = t.heard
            rw [hnone]
            exact List.append_nil _
      rw [List.foldl_cons, ih hstep.1 hrest, hstep.2]

/-- **After `remove_callback` has returned nothing is called under the key** until it is added
again. -/
theorem removed_not_called {pre post : List (Callbacks.Label ι κ)}
    (hpre : Callbacks.runLabels calls (pre ++ [.removeCallback key]) = .ok s)
    (hpost : Run.run (Callbacks.step calls) s post = .ok s')
    (hadd : ∀ callback, .addCallback key callback ∉ post) :
    callsUnder key s'.log = callsUnder key s.log := by
  have hidle : s.owed = [] := by
    obtain ⟨s₀, _, hlast⟩ := Run.run_snoc_eq_ok.mp hpre
    cases step_served hlast with
    | removed hidle =>
        unfold Callbacks.owed
        rw [hidle]
  have hnow := hears_run hpre key
  have hlater : Callbacks.runLabels calls ((pre ++ [.removeCallback key]) ++ post) = .ok s' :=
    Run.run_append_eq_ok.mpr ⟨s, hpre, hpost⟩
  have hthen := hears_run hlater key
  have hsilent : callsUnder key (s'.log ++ s'.owed) = callsUnder key s.log := by
    rw [hthen.heard, List.filterMap_append, Listener.of, List.foldl_append, listener_silent]
    · rw [← Listener.of, ← hnow.heard, hidle, List.append_nil]
    · rw [List.filterMap_append, List.foldl_append]
      show (if key = key then _ else _ : Listener κ).callback = none
      rw [if_pos rfl]
    · intro callback hmem
      obtain ⟨l, hl, hop⟩ := List.mem_filterMap.mp hmem
      cases l <;> cases hop
      exact hadd callback hl
  have hmore : ∀ t l t', s.log <+: t.log → Callbacks.step calls t l = .ok t' →
      s.log <+: t'.log := fun _ _ _ h hstep => h.trans (step_served hstep).log
  have hgrows : s.log <+: s'.log := Run.invariant_of_step hmore (List.prefix_refl _) hpost
  -- the calls between the two are squeezed out
  obtain ⟨more, hmore⟩ := hgrows
  rw [← hmore, callsUnder_append, callsUnder_append, List.append_assoc,
    List.append_right_eq_self, List.append_eq_nil_iff] at hsilent
  rw [← hmore, callsUnder_append, hsilent.1, List.append_nil]

theorem removed_not_called_again :
    ∃ s s', Callbacks.runLabels Sample.only
        ((Sample.heard ++ [.leave, .unlock]) ++ [.removeCallback (ascii "k")]) = .ok s
      ∧ Run.run (Callbacks.step Sample.only) s
        [.world (.emit none Sample.hangup), .world .dispatch, .lock [], .unlock] = .ok s'
      ∧ callsUnder (ascii "k") s'.log = callsUnder (ascii "k") s.log := by
  have hrun : ∃ s s', Callbacks.runLabels Sample.only
        ((Sample.heard ++ [.leave, .unlock]) ++ [.removeCallback (ascii "k")]) = .ok s
      ∧ Run.run (Callbacks.step Sample.only) s
        [.world (.emit none Sample.hangup), .world .dispatch, .lock [], .unlock] = .ok s' :=
    ⟨_, _, rfl, rfl⟩
  obtain ⟨s, s', hpre, hpost⟩ := hrun
  exact ⟨s, s', hpre, hpost, removed_not_called hpre hpost (by simp)⟩

/-! ## Callbacks that call the connection -/

/-- While a callback waits the worker takes no message. -/
theorem delivered_still {nested : Nested ι} (h : s.Waits nested) {l : CppAmi.Label ι}
    {w : World ι} (hfree : l = .dispatch → s.Free) (hw : s.world.step calls l = .ok w) :
    w.delivered = s.world.delivered := by
  obtain ⟨dict, rest, hwait⟩ := h
  rcases (step_turn hw).flow with ⟨_, _, hsame⟩ | ⟨_, _, _, _, hsame⟩ | ⟨_, hl, _⟩
  · exact hsame
  · exact hsame
  · have hf := hfree hl
    rw [Callbacks.Free, hwait] at hf
    exact hf.elim

/-- A callback that waits for what it called waits on, unless that was an `invoke` that has
ended; and until then nothing moves. -/
theorem waits_served {nested : Nested ι} (h : s.Waits nested) (hs : Served calls s l s') :
    (s'.Waits nested ∧ Stalled s s')
      ∨ ∃ i, nested = .invoke i ∧ ((∃ r, s.world.pc i = .returned r)
        ∨ (∃ err, s.world.pc i = .threw err) ∨ ∃ err, s.world.pc i = .writeThrew err) := by
  have hsame := @delivered_still _ _ _ calls s _ h
  obtain ⟨dict, rest, hwait⟩ := h
  cases hs with
  | world hfree hw => exact Or.inl ⟨⟨dict, rest, hwait⟩, hsame hfree hw, rfl, rfl⟩
  | nestedReturned hcall hend =>
      rw [hcall] at hwait
      cases hwait
      exact Or.inr ⟨_, rfl, hend⟩
  | added hidle => exact absurd (hidle.symm.trans hwait) (by simp)
  | removed hidle => exact absurd (hidle.symm.trans hwait) (by simp)
  | locked hidle => exact absurd (hidle.symm.trans hwait) (by simp)
  | called hloop => exact absurd (hloop.symm.trans hwait) (by simp)
  | nested hcall => exact absurd (hcall.symm.trans hwait) (by simp)
  | left hcall => exact absurd (hcall.symm.trans hwait) (by simp)
  | unlocked hloop => exact absurd (hloop.symm.trans hwait) (by simp)

omit [DecidableEq ι] in
theorem stalled_refl (s : Callbacks ι κ) : Stalled s s := ⟨rfl, rfl, rfl⟩

omit [DecidableEq ι] in
theorem stalled_trans {s₁ s₂ s₃ : Callbacks ι κ} (h : Stalled s₁ s₂) (h' : Stalled s₂ s₃) :
    Stalled s₁ s₃ :=
  ⟨h'.delivered.trans h.delivered, h'.log.trans h.log, h'.callbacks.trans h.callbacks⟩

/-- **A callback that adds or removes a callback never returns,** and with it the connection
stands still for good. -/
theorem nested_lock_hangs (hwait : s.Waits .lock) {labels : List (Callbacks.Label ι κ)}
    (hrun : Run.run (Callbacks.step calls) s labels = .ok s') : s'.Waits .lock ∧ Stalled s s' := by
  have hkeep : ∀ t l t', t.Waits .lock ∧ Stalled s t → Callbacks.step calls t l = .ok t' →
      t'.Waits .lock ∧ Stalled s t' := by
    intro t l t' ⟨hwait, hstill⟩ hstep
    rcases waits_served hwait (step_served hstep) with ⟨hwait', hstill'⟩ | ⟨i, hi, _⟩
    · exact ⟨hwait', stalled_trans hstill hstill'⟩
    · cases hi
  exact Run.invariant_of_step hkeep ⟨hwait, stalled_refl s⟩ hrun

theorem nested_lock_hangs_adding :
    ∃ s s', Callbacks.runLabels Sample.only (Sample.heard ++ [.nest .lock]) = .ok s
      ∧ Run.run (Callbacks.step Sample.only) s [.world (.emit none Sample.hangup)] = .ok s'
      ∧ s'.Waits .lock ∧ Stalled s s' := by
  have hrun : ∃ s s', Callbacks.runLabels Sample.only (Sample.heard ++ [.nest .lock]) = .ok s
      ∧ s.Waits .lock
      ∧ Run.run (Callbacks.step Sample.only) s [.world (.emit none Sample.hangup)] = .ok s' :=
    ⟨_, _, rfl, ⟨_, _, rfl⟩, rfl⟩
  obtain ⟨s, s', hpre, hwait, hpost⟩ := hrun
  exact ⟨s, s', hpre, hpost, nested_lock_hangs hwait hpost⟩

/-- A call of `invoke` that a callback waits for hears nothing. -/
structure Deaf (calls : ι → Call) (i : ι) (s : Callbacks ι κ) : Prop where
  session : Session calls (calls i).actionId s.world
  nothing : s.Waits (.invoke i) →
    s.world.pc i = .start ∨ s.world.mark i = s.world.delivered.length

omit [DecidableEq ι] in
theorem not_waits {nested : Nested ι} {pc : HandlerPc ι κ} (hpc : s.handler = pc)
    (h : ∀ dict rest, pc ≠ .calling dict rest (some nested)) : ¬ s.Waits nested := by
  rintro ⟨dict, rest, hwait⟩
  exact h dict rest (hpc.symm.trans hwait)

theorem deaf_served {i : ι}
    (halone : ∀ j k, (calls j).actionId = (calls i).actionId →
      (calls k).actionId = (calls i).actionId → k = j)
    (h : Deaf calls i s) (hs : Served calls s l s') : Deaf calls i s' := by
  obtain ⟨hsession, hnothing⟩ := h
  cases hs with
  | @world l w hfree hw =>
      have hturn := step_turn hw
      refine ⟨session_turn hsession (sequential_of_alone halone _ _) hturn, ?_⟩
      intro hwait
      by_cases hl : l = .getEventPipe i
      · subst hl
        cases hturn with
        | getEventPipe hpc hd => exact Or.inr (Function.update_self _ _ _)
      · have hsame : w.delivered = s.world.delivered :=
          delivered_still (s := s) hwait hfree hw
        by_cases hpc : w.pc i = .start
        · exact Or.inl hpc
        · obtain ⟨hstarted, hmark⟩ := hturn.started hl hpc
          rcases hnothing hwait with hstart | hall
          · exact absurd hstart hstarted
          · right
            show w.mark i = w.delivered.length
            rw [hmark, hsame, hall]
  | added hidle => exact ⟨hsession, fun hwait => absurd hwait (not_waits hidle (by simp))⟩
  | removed hidle => exact ⟨hsession, fun hwait => absurd hwait (not_waits hidle (by simp))⟩
  | locked hidle => exact ⟨hsession, fun hwait => absurd hwait (not_waits rfl (by simp))⟩
  | called hloop => exact ⟨hsession, fun hwait => absurd hwait (not_waits rfl (by simp))⟩
  | nested hcall hstart =>
      refine ⟨hsession, ?_⟩
      rintro ⟨dict, rest, hwait⟩
      cases hwait
      exact Or.inl (hstart i rfl)
  | nestedReturned hcall => exact ⟨hsession, fun hwait => absurd hwait (not_waits rfl (by simp))⟩
  | left hcall => exact ⟨hsession, fun hwait => absurd hwait (not_waits rfl (by simp))⟩
  | unlocked hloop => exact ⟨hsession, fun hwait => absurd hwait (not_waits rfl (by simp))⟩

omit [DecidableEq ι] in
/-- A call that has heard nothing can only have timed out. -/
theorem deaf_outcome {i : ι} (h : Deaf calls i s) (hwait : s.Waits (.invoke i)) :
    (∀ r, s.world.pc i ≠ .returned r)
      ∧ ∀ err, s.world.pc i = .threw err →
        err = timeoutError (calls i).actionId ∧ (calls i).timeout.isSome := by
  have hfollows := h.session.follows i rfl
  unfold Follows at hfollows
  refine ⟨?_, ?_⟩
  · intro r hpc
    rcases h.nothing hwait with hstart | hall
    · rw [hstart] at hpc
      cases hpc
    · rw [hpc] at hfollows
      have hresponse : s.world.response calls i = .done (.value r) := hfollows
      rw [World.response, World.heard, World.heardSince, hall, List.drop_length] at hresponse
      cases hresponse
  · intro err hpc
    rw [hpc] at hfollows
    obtain ⟨herr, htimed, _⟩ := hfollows
    exact ⟨herr, htimed⟩

/-! ## Where the handler stands still -/

/-- The handler is never ahead of the messages. -/
theorem handled_served (h : s.handled ≤ s.world.dispatcher.notified.length)
    (hsound : Sound s.world.dispatcher) (hs : Served calls s l s') :
    s'.handled ≤ s'.world.dispatcher.notified.length := by
  cases hs with
  | world hfree hw => exact h.trans ((step_turn hw).notified hsound).length_le
  | locked hidle hdict horder => exact (List.getElem?_eq_some_iff.mp hdict).1
  | _ => exact h

theorem run_handed {labels : List (Callbacks.Label ι κ)}
    (hrun : Callbacks.runLabels calls labels = .ok s) :
    Handed s ∧ s.handled ≤ s.world.dispatcher.notified.length := by
  have hkeep : ∀ (t : Callbacks ι κ) (l : Callbacks.Label ι κ) (t' : Callbacks ι κ),
      Handed t ∧ t.handled ≤ t.world.dispatcher.notified.length →
      Callbacks.step calls t l = .ok t' →
      Handed t' ∧ t'.handled ≤ t'.world.dispatcher.notified.length :=
    fun _ _ _ h hstep => ⟨handed_served h.1 (step_served hstep),
      handled_served h.2 h.1.sound (step_served hstep)⟩
  have hinit : Handed ({} : Callbacks ι κ)
      ∧ ({} : Callbacks ι κ).handled ≤ ({} : Callbacks ι κ).world.dispatcher.notified.length :=
    ⟨handed_init, Nat.le_refl 0⟩
  exact Run.invariant_of_step hkeep hinit hrun

omit [DecidableEq ι] in
theorem free_idle (hfree : s.Free) :
    s.handler = .idle ∧ s.handled = s.world.dispatcher.notified.length := by
  unfold Callbacks.Free at hfree
  split at hfree
  · exact ⟨‹_›, hfree⟩
  · exact hfree.elim

omit [DecidableEq ι] in
theorem running_not_ended {i : ι} (h : s.Running (.invoke i)) :
    ¬ ((∃ r, s.world.pc i = .returned r) ∨ (∃ err, s.world.pc i = .threw err)
      ∨ ∃ err, s.world.pc i = .writeThrew err) := by
  rintro (⟨r, hpc⟩ | ⟨err, hpc⟩ | ⟨err, hpc⟩) <;> simp [Callbacks.Running, hpc] at h

/-- A callback that waits for what has ended goes on. -/
theorem nestedReturns_enabled {i : ι} (hwait : s.Waits (.invoke i))
    (hend : ¬ s.Running (.invoke i)) : ∃ s', s.step calls .nestedReturns = .ok s' := by
  obtain ⟨dict, rest, hcall⟩ := hwait
  refine ⟨{ s with handler := .calling dict rest none }, ?_⟩
  simp only [Callbacks.step, hcall]
  cases hpc : s.world.pc i with
  | returned r => rfl
  | threw err => rfl
  | writeThrew err => rfl
  | start => exact absurd (by simp only [Callbacks.Running, hpc]) hend
  | registered f => exact absurd (by simp only [Callbacks.Running, hpc]) hend
  | waiting f => exact absurd (by simp only [Callbacks.Running, hpc]) hend
  | timedOut f => exact absurd (by simp only [Callbacks.Running, hpc]) hend
  | getting f => exact absurd (by simp only [Callbacks.Running, hpc]) hend

/--
**Only what a callback has called can hold the handler up.**

In every state of every history, `dispatch_handler` and the callback that runs have no turn
exactly when all messages have been handed over, or the callback waits for the mutex or for
an `invoke` that has not ended.
-/
theorem handler_stuck_iff {labels : List (Callbacks.Label ι κ)}
    (hrun : Callbacks.runLabels calls labels = .ok s) :
    (∀ l : Callbacks.Label ι κ, l.handler = true → ∀ s', s.step calls l ≠ .ok s')
      ↔ s.Free ∨ ∃ nested, s.Waits nested ∧ s.Running nested := by
  have hle := (run_handed hrun).2
  constructor
  · intro hstuck
    cases hhandler : s.handler with
    | idle =>
        left
        unfold Callbacks.Free
        rw [hhandler]
        by_contra hne
        have hlt : s.handled < s.world.dispatcher.notified.length := Nat.lt_of_le_of_ne hle hne
        refine hstuck (.lock s.callbacks.keys) rfl
          { s with
            handler := .looping s.world.dispatcher.notified[s.handled]
              (s.entries s.callbacks.keys),
            handled := s.handled + 1 } ?_
        simp only [Callbacks.step, hhandler, List.getElem?_eq_getElem hlt, List.Perm.refl, if_true]
    | looping dict rest =>
        exfalso
        cases rest with
        | nil =>
            refine hstuck .unlock rfl { s with handler := .idle } ?_
            simp only [Callbacks.step, hhandler]
        | cons entry rest =>
            refine hstuck .call rfl
              { s with
                handler := .calling dict rest none,
                log := s.log ++ [{ key := entry.1, callback := entry.2, dict := dict,
                                   round := s.handled - 1 }] } ?_
            simp only [Callbacks.step, hhandler]
    | calling dict rest nested =>
        cases nested with
        | none =>
            exfalso
            refine hstuck .leave rfl { s with handler := .looping dict rest } ?_
            simp only [Callbacks.step, hhandler]
        | some nested =>
            refine Or.inr ⟨nested, ⟨dict, rest, hhandler⟩, ?_⟩
            cases nested with
            | lock => trivial
            | invoke i =>
                by_contra hend
                obtain ⟨s', hs'⟩ := nestedReturns_enabled ⟨dict, rest, hhandler⟩ hend
                exact hstuck .nestedReturns rfl s' hs'
  · rintro (hfree | ⟨nested, ⟨dict, rest, hwait⟩, hrunning⟩) l hl s' hstep
    · -- the handler is idle and there is no message for it
      have hidle := free_idle hfree
      cases step_served hstep with
      | world => cases hl
      | added => cases hl
      | removed => cases hl
      | nested => cases hl
      | locked _ hdict =>
          have hlt := (List.getElem?_eq_some_iff.mp hdict).1
          omega
      | called hloop => exact absurd (hloop.symm.trans hidle.1) (by simp)
      | nestedReturned hcall => exact absurd (hcall.symm.trans hidle.1) (by simp)
      | left hcall => exact absurd (hcall.symm.trans hidle.1) (by simp)
      | unlocked hloop => exact absurd (hloop.symm.trans hidle.1) (by simp)
    · cases step_served hstep with
      | world => cases hl
      | added => cases hl
      | removed => cases hl
      | nested => cases hl
      | locked hidle => exact absurd (hidle.symm.trans hwait) (by simp)
      | called hloop => exact absurd (hloop.symm.trans hwait) (by simp)
      | left hcall => exact absurd (hcall.symm.trans hwait) (by simp)
      | unlocked hloop => exact absurd (hloop.symm.trans hwait) (by simp)
      | nestedReturned hcall hend =>
          rw [hcall] at hwait
          cases hwait
          exact running_not_ended hrunning hend

/-- The callback that pings: nothing moves while its call runs. -/
theorem handler_stuck_pinging :
    ∃ s, Callbacks.runLabels Sample.only (Sample.heard ++ [.nest (.invoke ())]) = .ok s
      ∧ ((∀ l : Callbacks.Label Unit Nat, l.handler = true →
          ∀ s', s.step Sample.only l ≠ .ok s')
        ↔ s.Free ∨ ∃ nested, s.Waits nested ∧ s.Running nested) := by
  have hrun : ∃ s, Callbacks.runLabels Sample.only (Sample.heard ++ [.nest (.invoke ())])
      = .ok s := ⟨_, rfl⟩
  obtain ⟨s, hrun⟩ := hrun
  exact ⟨s, hrun, handler_stuck_iff hrun⟩

/-! ## Calls of `invoke` -/

theorem writeThrew_served {i : ι} {err : Exn} (hs : Served calls s l s')
    (herr : s.world.pc i = .writeThrew err) : s'.world.pc i = .writeThrew err := by
  cases hs with
  | world hfree hw => exact (step_turn hw).writeThrew herr
  | _ => exact herr

/--
**A callback that calls `invoke` never gets an answer.**

The thread that would take the answer is the one that waits. With a timeout the call
throws; without one the connection stands still for good, unless the write throws.
-/
theorem nested_invoke_hangs {i : ι}
    (halone : ∀ j k, (calls j).actionId = (calls i).actionId →
      (calls k).actionId = (calls i).actionId → k = j)
    {labels : List (Callbacks.Label ι κ)} (hrun : Callbacks.runLabels calls labels = .ok s)
    (hwait : s.Waits (.invoke i)) :
    (∀ r, s.world.pc i ≠ .returned r)
      ∧ (∀ err, s.world.pc i = .threw err →
        err = timeoutError (calls i).actionId ∧ (calls i).timeout.isSome)
      ∧ ((calls i).timeout = none → ∀ later s',
        Run.run (Callbacks.step calls) s later = .ok s' →
        (∀ err, s'.world.pc i ≠ .writeThrew err) → s'.Waits (.invoke i) ∧ Stalled s s') := by
  have hdeaf : Deaf calls i s := Run.invariant_of_step
    (fun _ _ _ h hstep => deaf_served halone h (step_served hstep))
    ⟨session_init calls _, fun hwait => Or.inl rfl⟩ hrun
  refine ⟨(deaf_outcome hdeaf hwait).1, (deaf_outcome hdeaf hwait).2, ?_⟩
  intro huntimed later s' hlater hwrite
  have hkeep : ∀ t l t', Deaf calls i t
      ∧ ((∃ err, t.world.pc i = .writeThrew err) ∨ (t.Waits (.invoke i) ∧ Stalled s t)) →
      Callbacks.step calls t l = .ok t' → Deaf calls i t'
      ∧ ((∃ err, t'.world.pc i = .writeThrew err) ∨ (t'.Waits (.invoke i) ∧ Stalled s t')) := by
    rintro t l t' ⟨hdeaf, hstill⟩ hstep
    have hserved := step_served hstep
    refine ⟨deaf_served halone hdeaf hserved, ?_⟩
    rcases hstill with ⟨err, herr⟩ | ⟨hwait, hstill⟩
    · exact Or.inl ⟨err, writeThrew_served hserved herr⟩
    · rcases waits_served hwait hserved with ⟨hwait', hstill'⟩ | ⟨j, hj, hend⟩
      · exact Or.inr ⟨hwait', stalled_trans hstill hstill'⟩
      · cases hj
        obtain ⟨hreturned, hthrew⟩ := deaf_outcome hdeaf hwait
        rcases hend with ⟨r, hr⟩ | ⟨err, herr⟩ | ⟨err, herr⟩
        · exact absurd hr (hreturned r)
        · rw [huntimed] at hthrew
          exact absurd (hthrew err herr).2 (by simp)
        · exact Or.inl ⟨err, writeThrew_served hserved herr⟩
  rcases (Run.invariant_of_step hkeep ⟨hdeaf, Or.inr ⟨hwait, stalled_refl s⟩⟩ hlater).2 with
    ⟨err, herr⟩ | hdone
  · exact absurd herr (hwrite err)
  · exact hdone

theorem nested_invoke_hangs_pinging :
    ∃ s, Callbacks.runLabels Sample.only (Sample.heard
        ++ [.nest (.invoke ()), .world (.getEventPipe ()), .world (.write ())]) = .ok s
      ∧ (∀ r, s.world.pc () ≠ .returned r)
      ∧ (∀ err, s.world.pc () = .threw err →
        err = timeoutError (Sample.only ()).actionId ∧ (Sample.only ()).timeout.isSome)
      ∧ ((Sample.only ()).timeout = none → ∀ later s',
        Run.run (Callbacks.step Sample.only) s later = .ok s' →
        (∀ err, s'.world.pc () ≠ .writeThrew err) → s'.Waits (.invoke ()) ∧ Stalled s s') := by
  have hrun : ∃ s, Callbacks.runLabels Sample.only (Sample.heard
        ++ [.nest (.invoke ()), .world (.getEventPipe ()), .world (.write ())]) = .ok s
      ∧ s.Waits (.invoke ()) := ⟨_, rfl, _, _, rfl⟩
  obtain ⟨s, hrun, hwait⟩ := hrun
  exact ⟨s, hrun, nested_invoke_hangs (fun _ _ _ _ => rfl) hrun hwait⟩

end

end CppAmi.Proof
