import CppAmi.Lib.Simulation
import CppAmi.Proof.Callbacks

/-!
# Callbacks that return are not seen

A connection with callbacks does nothing that one without could not do: forgetting the
handler is a simulation. The other way round is the question whether the callbacks hold
anything up. They do not as long as they do not call the connection, since then
`dispatch_handler` can always be run to its end (`callbacks_transparent`).
-/

namespace CppAmi.Proof

open CppAmi EventDispatcher World Callbacks Simulation

variable {ι κ : Type} [DecidableEq ι] {calls : ι → Call} {s s' : Callbacks ι κ}

/-! ## Forgetting the handler -/

theorem served_matched {l : Callbacks.Label ι κ} (hs : Served calls s l s') :
    ∃ ks, Matched (World.step calls) some (fun _ _ => True) s.world l.seen.toList ks s'.world := by
  cases hs with
  | @world l w hfree hw => exact ⟨[l], .one hw trivial⟩
  | _ => exact ⟨[], .refl _⟩

/-! ## Running the handler -/

/-- What the handler can do by itself with callbacks that return. -/
abbrev Runs (calls : ι → Call) (s : Callbacks ι κ) (seen : List (CppAmi.Label ι))
    (labels : List (Callbacks.Label ι κ)) (s' : Callbacks ι κ) : Prop :=
  Matched (Callbacks.step calls) Callbacks.Label.seen Callbacks.Returning s seen labels s'

theorem runs_cons {l : Callbacks.Label ι κ} {labels : List (Callbacks.Label ι κ)}
    {s₁ : Callbacks ι κ} (hstep : s.step calls l = .ok s₁) (hl : l.handler = true)
    (hrest : Runs calls s₁ [] labels s') : Runs calls s [] (l :: labels) s' := by
  have hseen : l.seen = none := by cases l <;> first | rfl | cases hl
  have hreturning : Callbacks.Returning s l := by
    rintro nested rfl
    cases hl
  have hall := (Matched.one hstep hreturning).trans hrest
  rw [hseen] at hall
  exact hall

/-- `dispatch_handler` has returned, and nothing else has changed. -/
structure LoopEnded (s s' : Callbacks ι κ) : Prop where
  world : s'.world = s.world
  callbacks : s'.callbacks = s.callbacks
  handled : s'.handled = s.handled
  idle : s'.handler = .idle

variable (calls) in
theorem loop_runs {dict : Event} {rest : List (Bytes × κ)}
    (hloop : s.handler = .looping dict rest) :
    ∃ labels s', Runs calls s [] labels s' ∧ LoopEnded s s' := by
  induction rest generalizing s with
  | nil =>
      have hunlock : s.step calls .unlock = .ok { s with handler := .idle } := by
        simp only [Callbacks.step, hloop]
      exact ⟨_, _, runs_cons hunlock rfl (.refl _), ⟨rfl, rfl, rfl, rfl⟩⟩
  | cons entry rest ih =>
      have hcall : s.step calls .call = .ok { s with
          handler := .calling dict rest none,
          log := s.log ++ [{ key := entry.1, callback := entry.2, dict := dict,
                             round := s.handled - 1 }] } := by
        simp only [Callbacks.step, hloop]
      obtain ⟨labels, s', hrest, hended⟩ := ih (s := { s with
        handler := .looping dict rest,
        log := s.log ++ [{ key := entry.1, callback := entry.2, dict := dict,
                           round := s.handled - 1 }] }) rfl
      exact ⟨_, s', runs_cons hcall rfl (runs_cons (l := .leave) rfl rfl hrest),
        ⟨hended.world, hended.callbacks, hended.handled, hended.idle⟩⟩

/-- The handler has come to rest, and nothing else has changed. -/
structure Rested (s s' : Callbacks ι κ) : Prop where
  world : s'.world = s.world
  callbacks : s'.callbacks = s.callbacks
  free : s'.Free

variable (calls) in
/-- The messages that are before the handler are handed over one by one. -/
theorem idle_rests {n : Nat} (hn : s.world.dispatcher.notified.length = s.handled + n)
    (hidle : s.handler = .idle) : ∃ labels s', Runs calls s [] labels s' ∧ Rested s s' := by
  induction n generalizing s with
  | zero =>
      refine ⟨[], s, .refl s, rfl, rfl, ?_⟩
      unfold Callbacks.Free
      rw [hidle]
      omega
  | succ n ih =>
      have hlt : s.handled < s.world.dispatcher.notified.length := by omega
      have hlock : s.step calls (.lock s.callbacks.keys) = .ok { s with
          handler := .looping s.world.dispatcher.notified[s.handled]
            (s.entries s.callbacks.keys),
          handled := s.handled + 1 } := by
        simp only [Callbacks.step, hidle, List.getElem?_eq_getElem hlt, List.Perm.refl, if_true]
      obtain ⟨labels, s₁, hloop, hended⟩ := loop_runs calls (s := { s with
        handler := .looping s.world.dispatcher.notified[s.handled] (s.entries s.callbacks.keys),
        handled := s.handled + 1 }) rfl
      have hn₁ : s₁.world.dispatcher.notified.length = s₁.handled + n := by
        rw [hended.world, hended.handled]
        show s.world.dispatcher.notified.length = s.handled + 1 + n
        omega
      obtain ⟨more, s', hmore, hrested⟩ := ih hn₁ hended.idle
      refine ⟨_, s', runs_cons hlock rfl (hloop.trans hmore), ?_⟩
      exact ⟨hrested.world.trans hended.world, hrested.callbacks.trans hended.callbacks,
        hrested.free⟩

variable (calls) in
/-- A handler whose callback does not wait can be run until it rests. -/
theorem handler_rests (hle : s.handled ≤ s.world.dispatcher.notified.length)
    (hwait : ∀ nested, ¬ s.Waits nested) :
    ∃ labels s', Runs calls s [] labels s' ∧ Rested s s' := by
  have hloop : ∀ {t : Callbacks ι κ} {dict rest}, t.handler = .looping dict rest →
      t.handled ≤ t.world.dispatcher.notified.length →
      ∃ labels s', Runs calls t [] labels s' ∧ Rested t s' := by
    intro t dict rest hlooping hle
    obtain ⟨labels, t₁, hruns, hended⟩ := loop_runs calls hlooping
    have hn : t₁.world.dispatcher.notified.length
        = t₁.handled + (t.world.dispatcher.notified.length - t.handled) := by
      rw [hended.world, hended.handled]
      omega
    obtain ⟨more, s', hmore, hrested⟩ := idle_rests calls hn hended.idle
    exact ⟨_, s', hruns.trans hmore, hrested.world.trans hended.world,
      hrested.callbacks.trans hended.callbacks, hrested.free⟩
  cases hhandler : s.handler with
  | idle => exact idle_rests calls (Nat.add_sub_of_le hle).symm hhandler
  | looping dict rest => exact hloop hhandler hle
  | calling dict rest nested =>
      cases nested with
      | some nested => exact absurd ⟨dict, rest, hhandler⟩ (hwait nested)
      | none =>
          have hleave : s.step calls .leave = .ok { s with handler := .looping dict rest } := by
            simp only [Callbacks.step, hhandler]
          obtain ⟨labels, s', hruns, hrested⟩ := hloop (t := { s with
            handler := .looping dict rest }) rfl hle
          exact ⟨_, s', runs_cons hleave rfl hruns, hrested.world, hrested.callbacks,
            hrested.free⟩

/-! ## Both ways -/

/-- A turn of the world is a turn where the handler rests. -/
theorem world_turn {l : CppAmi.Label ι} {w : World ι} (hfree : s.Free)
    (hw : s.world.step calls l = .ok w) : s.step calls (.world l) = .ok { s with world := w } := by
  have hturn : s.turn calls l = .ok { s with world := w } := by
    unfold Callbacks.turn
    rw [hw]
    rfl
  cases l with
  | dispatch =>
      simp only [Callbacks.step, hfree, if_true]
      exact hturn
  | _ => exact hturn

/-- A connection whose handler rests stands for its world. -/
structure Idles (callbacks : UMap κ) (w : World ι) (s : Callbacks ι κ) : Prop where
  world : s.world = w
  sound : Sound w.dispatcher
  free : s.Free
  callbacks : s.callbacks = callbacks

theorem idles_matched {callbacks : UMap κ} {w w' : World ι} {l : CppAmi.Label ι}
    (h : Idles callbacks w s) (hw : World.step calls w l = .ok w') :
    ∃ labels s', Runs calls s [l] labels s' ∧ Idles callbacks w' s' := by
  obtain ⟨rfl, hsound, hfree, hcallbacks⟩ := h
  have hturn := step_turn hw
  have hstep := world_turn hfree hw
  obtain ⟨hidle, hhandled⟩ := free_idle hfree
  have hle : s.handled ≤ w'.dispatcher.notified.length := by
    rw [hhandled]
    exact (hturn.notified hsound).length_le
  obtain ⟨labels, s', hruns, hrested⟩ := idle_rests calls (s := { s with world := w' })
    (Nat.add_sub_of_le hle).symm hidle
  have hone : Runs calls s [l] [.world l] { s with world := w' } := .one hstep nofun
  refine ⟨_, s', hone.trans hruns, ?_⟩
  exact ⟨hrested.world, hturn.sound hsound, hrested.free, hrested.callbacks.trans hcallbacks⟩

/--
**Callbacks that return are not seen.**

Every history with callbacks is, without what the callbacks and their handler do, a history
of the world that ends in the same world. And where no callback waits, every way in which
the world can go on from there is one that the connection with its callbacks can go, if these
return without calling the connection, and at its end the handler is at rest.
-/
theorem callbacks_transparent {labels : List (Callbacks.Label ι κ)}
    (hrun : Callbacks.runLabels calls labels = .ok s) :
    World.runLabels calls (labels.filterMap Callbacks.Label.seen) = .ok s.world
      ∧ ((∀ nested, ¬ s.Waits nested) → ∀ ks w, Run.run (World.step calls) s.world ks = .ok w →
        ∃ more s', Run.run (Callbacks.step calls) s more = .ok s'
          ∧ Run.Along (Callbacks.step calls) Callbacks.Returning s more
          ∧ more.filterMap Callbacks.Label.seen = ks
          ∧ s'.world = w ∧ s'.callbacks = s.callbacks ∧ s'.Free) := by
  refine ⟨?_, ?_⟩
  · have hstep : ∀ (t : Callbacks ι κ) (v : World ι) (l : Callbacks.Label ι κ) (t' : Callbacks ι κ),
        t.world = v → True → t.step calls l = .ok t' →
        ∃ ks v', Matched (World.step calls) some (fun _ _ => True) v l.seen.toList ks v'
          ∧ t'.world = v' := by
      rintro t v l t' rfl _ hl
      obtain ⟨ks, hks⟩ := served_matched (step_served hl)
      exact ⟨ks, _, hks, rfl⟩
    obtain ⟨ks, w, hks, hw⟩ := run_forward hstep rfl (Run.along_of_forall (fun _ _ => trivial) _ _)
      hrun
    have hseen := hks.seen
    rw [List.filterMap_some] at hseen
    rw [← hseen, hw]
    exact hks.run
  · intro hwait ks w hks
    obtain ⟨hhanded, hle⟩ := run_handed hrun
    obtain ⟨first, s₁, hfirst, hrested⟩ := handler_rests calls hle hwait
    have hidles : Idles s.callbacks s.world s₁ :=
      ⟨hrested.world, hhanded.sound, hrested.free, hrested.callbacks⟩
    have hstep : ∀ (v : World ι) (t : Callbacks ι κ) (l : CppAmi.Label ι) (v' : World ι),
        Idles s.callbacks v t → True → World.step calls v l = .ok v' →
        ∃ labels t', Runs calls t (some l).toList labels t' ∧ Idles s.callbacks v' t' :=
      fun _ _ _ _ h _ hl => idles_matched h hl
    obtain ⟨more, s', hmore, hidles'⟩ := run_forward hstep hidles
      (Run.along_of_forall (fun _ _ => trivial) _ _) hks
    have hall := hfirst.trans hmore
    have hseen := hall.seen
    rw [List.filterMap_some, List.nil_append] at hseen
    exact ⟨_, s', hall.run, hall.along, hseen, hidles'.world, hidles'.callbacks, hidles'.free⟩

/-- The next message comes in while a callback runs. -/
theorem callbacks_transparent_heard :
    ∃ s more s', Callbacks.runLabels Sample.only Sample.heard = .ok s
      ∧ World.runLabels Sample.only (Sample.heard.filterMap Callbacks.Label.seen) = .ok s.world
      ∧ Run.run (Callbacks.step Sample.only) s more = .ok s'
      ∧ more.filterMap Callbacks.Label.seen = [.emit none Sample.hangup, .dispatch] ∧ s'.Free := by
  have hrun : ∃ s w, Callbacks.runLabels Sample.only Sample.heard = .ok s
      ∧ (∃ dict rest, s.handler = .calling dict rest none)
      ∧ Run.run (World.step Sample.only) s.world [.emit none Sample.hangup, .dispatch] = .ok w :=
    ⟨_, _, rfl, ⟨_, _, rfl⟩, rfl⟩
  obtain ⟨s, w, hrun, ⟨dict, rest, hcall⟩, hks⟩ := hrun
  have hwait : ∀ nested, ¬ s.Waits nested := by
    rintro nested ⟨dict', rest', hnested⟩
    rw [hcall] at hnested
    cases hnested
  obtain ⟨hworld, hgo⟩ := callbacks_transparent hrun
  obtain ⟨more, s', hmore, _, hseen, _, _, hfree⟩ := hgo hwait _ w hks
  exact ⟨s, more, s', hrun, hworld, hmore, hseen, hfree⟩

end CppAmi.Proof
