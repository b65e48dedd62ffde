import CppAmi.Proof.Assembly

/-!
# Which futures are backed by a promise

A future from `get_event_pipe` is backed if, whatever happens later, its promise stays
in the map until it is completed, it is completed by an operation on its own ActionID
or at teardown, and only once. That is so exactly when the ActionID had no pipe
(`future_backed_iff`): on a registered one `emplace` drops the new promise, and the
future is broken as soon as it is handed out.
-/

namespace CppAmi.Proof

open CppAmi EventDispatcher

/-! ## Teardown -/

/-- `cleanup_object` completes what is still open. -/
theorem cleanup_entries {d : EventDispatcher} (entries : List (Sigma fun _ : Bytes => Nat))
    (hpend : ∀ e ∈ entries, d.shared[e.2]? = some .pending)
    (hnodup : (entries.map Sigma.snd).Nodup) :
    ∃ d', entries.foldlM (fun d entry => d.setValue entry.2 none) d = .ok d'
      ∧ d'.promiseMap = d.promiseMap ∧ d'.eventMap = d.eventMap
      ∧ (∀ e ∈ entries, d'.shared[e.2]? = some (.value none))
      ∧ ∀ f, (∀ e ∈ entries, e.2 ≠ f) → d'.shared[f]? = d.shared[f]? := by
  induction entries generalizing d with
  | nil => exact ⟨d, rfl, rfl, rfl, by simp, fun f _ => rfl⟩
  | cons e entries ih =>
      rw [List.map_cons, List.nodup_cons] at hnodup
      have he := hpend e List.mem_cons_self
      have hne : ∀ e' ∈ entries, e.2 ≠ e'.2 := by
        intro e' he' heq
        exact hnodup.1 (heq ▸ List.mem_map_of_mem he')
      obtain ⟨d', hrun, hmap, hevents, hdone, hrest⟩ :=
        ih (d := { d with shared := d.shared.set e.2 (.value none) }) (fun e' he' => by
          rw [List.getElem?_set_ne (hne e' he')]
          exact hpend e' (List.mem_cons_of_mem e he')) hnodup.2
      refine ⟨d', ?_, hmap, hevents, ?_, ?_⟩
      · rw [List.foldlM_cons, setValue, satisfy_pending he]
        exact hrun
      · intro e' he'
        rcases List.mem_cons.mp he' with rfl | he'
        · rw [hrest _ fun x hx => (hne x hx).symm]
          exact getElem?_set_pending he _
        · exact hdone e' he'
      · intro f hf
        rw [hrest f fun x hx => hf x (List.mem_cons_of_mem e hx),
          List.getElem?_set_ne (hf e List.mem_cons_self)]

theorem destroy_satisfied {d : EventDispatcher} (entries : List (Sigma fun _ : Bytes => Nat))
    (h : ∀ e ∈ entries, d.shared[e.2]? ≠ some .pending) :
    entries.foldl (fun d entry => d.destroyPromise entry.2) d = d := by
  induction entries with
  | nil => rfl
  | cons e entries ih =>
      have he : d.destroyPromise e.2 = d := by
        have hne := h e List.mem_cons_self
        unfold destroyPromise
        split
        · rename_i hp
          exact absurd hp hne
        · rfl
      rw [List.foldl_cons, he]
      exact ih fun e' he' => h e' (List.mem_cons_of_mem e he')

/-- What a future reports once the dispatcher is gone. -/
def afterTeardown : Shared → Shared
  | .pending => .value none
  | result => result

/-- Without assertions, teardown completes the open pipes with a null and breaks none. -/
theorem destroy_completes {d : EventDispatcher} (h : WF d) :
    ∃ d' : EventDispatcher, d.destroy false = .ok d'
      ∧ ∀ f, (d.shared[f]? = some .pending → ∃ a, d.promiseMap.lookup a = some f) →
        d'.shared[f]? = d.shared[f]?.map afterTeardown := by
  have hlookup : ∀ e ∈ d.promiseMap.entries, d.promiseMap.lookup e.1 = some e.2 := by
    intro e he
    exact AList.mem_lookup_iff.mpr he
  have hpend : ∀ e ∈ d.promiseMap.entries, d.shared[e.2]? = some .pending := by
    intro e he
    exact h.pending e.1 e.2 (hlookup e he)
  have hnodup : (d.promiseMap.entries.map Sigma.snd).Nodup := by
    refine List.Nodup.map_on ?_ d.promiseMap.nodupKeys.nodup
    intro e he e' he' heq
    have hkey := h.inj e.1 e'.1 e.2 (hlookup e he) (by rw [heq]; exact hlookup e' he')
    exact Sigma.ext hkey (heq_of_eq heq)
  obtain ⟨d', hrun, hmap, hevents, hdone, hrest⟩ :=
    cleanup_entries d.promiseMap.entries hpend hnodup
  have hkeep := destroy_satisfied (d := d') d.promiseMap.entries fun e he => by
    rw [hdone e he]
    simp
  refine ⟨{ d' with promiseMap := ∅, eventMap := ∅ }, ?_, ?_⟩
  · simp [destroy, cleanupObject, hrun, bind, Except.bind, hmap, hkeep]
  · intro f howned
    show d'.shared[f]? = _
    by_cases hf : d.shared[f]? = some .pending
    · obtain ⟨a, ha⟩ := howned hf
      rw [hf, hdone ⟨a, f⟩ (AList.mem_lookup_iff.mp ha)]
      rfl
    · have hother : ∀ e ∈ d.promiseMap.entries, e.2 ≠ f := by
        intro e he heq
        subst heq
        exact hf (hpend e he)
      rw [hrest f hother]
      cases hx : d.shared[f]? with
      | none => rfl
      | some x =>
          cases x with
          | pending => exact absurd hx hf
          | value reaction => rfl
          | exception err => rfl

/-! ## Futures -/

/--
The future `f`, handed out for `a` when the dispatcher was `d`, is backed while `post`
runs: a promise stands behind it and it gets one result, from an operation on `a`.
-/
structure Backed (d : EventDispatcher) (a : Bytes) (f : Nat) (post : List Op)
    (d' : EventDispatcher) : Prop where
  run : Run.run EventDispatcher.apply d post = .ok d'
  /-- It is completed by the operations on its own ActionID, and not otherwise. -/
  completed : d'.shared[f]? = some (progressOf (post.filterMap (Op.onPipe a))).outcome
  /-- Until then its promise is registered. -/
  registered : d'.shared[f]? = some .pending → d'.promiseMap.lookup a = some f
  /-- It is broken only where somebody stores that very error in it. -/
  unbroken : d'.shared[f]? = some (.exception .brokenPromise) →
    Op.setExceptionOnPipe a .brokenPromise ∈ post
  /-- It is completed once. -/
  once : d'.shared[f]? ≠ some .pending → ∀ more d'',
    Run.run EventDispatcher.apply d' more = .ok d'' → d''.shared[f]? = d'.shared[f]?
  /-- If nothing completes it, teardown does. -/
  teardown : ∃ d'' : EventDispatcher, d'.destroy false = .ok d''
    ∧ d''.shared[f]? = d'.shared[f]?.map afterTeardown

theorem onPipe_exception {op : Op} {a : Bytes} {err : Exn}
    (h : op.onPipe a = some (.close (.exception err))) : op = .setExceptionOnPipe a err := by
  cases op with
  | getEventPipe b => cases h
  | dispatchEvent m =>
      simp only [Op.onPipe] at h
      split at h <;> cases h
  | setExceptionOnPipe b err' =>
      simp only [Op.onPipe] at h
      split at h
      · rename_i hb
        cases h
        rw [hb]
      · cases h
  | setNullOnPipe b =>
      simp only [Op.onPipe] at h
      split at h <;> cases h

theorem backed_of_tracks {d d' : EventDispatcher} (hs : Sound d) {a : Bytes} {f : Nat}
    (ht : Tracks (abs d) a f .waiting) {post : List Op}
    (hrun : Run.run EventDispatcher.apply d post = .ok d') : Backed d a f post d' := by
  obtain ⟨hs', ht'⟩ := run_tracks hs ht hrun
  have hshared := ht'.shared hs'.inv
  have hregistered : d'.shared[f]? = some .pending → d'.promiseMap.lookup a = some f := by
    intro hpend
    rcases ht'.cases hs'.inv with ⟨_, hslot⟩ | ⟨outcome, _, ho, hne, _⟩
    · simp only [abs, Option.map_eq_some_iff, Prod.mk.injEq] at hslot
      obtain ⟨g, hg, rfl, _⟩ := hslot
      exact hg
    · rw [abs_shared, hpend] at ho
      exact absurd (Option.some.inj ho).symm hne
  obtain ⟨d'', hdestroy, hafter⟩ := destroy_completes hs'.wf
  refine ⟨hrun, hshared, hregistered, ?_, ?_,
    d'', hdestroy, hafter f fun hpend => ⟨a, hregistered hpend⟩⟩
  · intro hbroken
    rw [abs_shared, hbroken] at hshared
    rcases foldl_exception (Option.some.inj hshared).symm with hinit | hmem
    · cases hinit
    · obtain ⟨op, hop, hpick⟩ := List.mem_filterMap.mp hmem
      rwa [onPipe_exception hpick] at hop
  · intro hdone more e hmore
    obtain ⟨hs'', ht''⟩ := run_tracks hs' ht' hmore
    rcases ht'.cases hs'.inv with ⟨hun, hslot⟩ | ⟨outcome, hp, ho, _, _⟩
    · exact absurd (hs'.inv.pending a f _ hslot) hdone
    · rw [hp, foldl_done] at ht''
      rw [← abs_shared, ← abs_shared d', ho]
      exact ht''.1

/-- On a registered ActionID the new promise goes away with the call. -/
theorem getEventPipe_registered {d : EventDispatcher} {a : Bytes} (h : a ∈ d.promiseMap) :
    (d.getEventPipe a).1.shared[(d.getEventPipe a).2]? = some (.exception .brokenPromise)
      ∧ ¬ ∃ d', Backed (d.getEventPipe a).1 a (d.getEventPipe a).2 [] d' := by
  have hbroken : (d.getEventPipe a).1.shared[(d.getEventPipe a).2]?
      = some (.exception .brokenPromise) := by
    simp [getEventPipe, h, destroyPromise]
  refine ⟨hbroken, ?_⟩
  intro hbacked
  obtain ⟨d', hb⟩ := hbacked
  have hrun := hb.run
  cases hrun
  exact absurd (hb.unbroken hbroken) (by simp)

/--
**A future is backed exactly when its ActionID had no pipe.**

After any run, the future that `get_event_pipe(a)` hands out is backed over every
continuation if and only if `a` is not registered at that moment.
-/
theorem future_backed_iff {pre : List Op} {d : EventDispatcher} (hpre : runOps pre = .ok d)
    (a : Bytes) :
    (∀ post, ∃ d', Backed (d.getEventPipe a).1 a (d.getEventPipe a).2 post d')
      ↔ a ∉ d.promiseMap := by
  refine ⟨fun h hmem => (getEventPipe_registered hmem).2 (h []), ?_⟩
  intro hfree post
  obtain ⟨d1, hstep, hsound, htracks⟩ := tracks_opened hfree (runOps_sound hpre)
  cases hstep
  obtain ⟨d2, hrun, _⟩ := run_sound hsound post
  exact ⟨d2, backed_of_tracks hsound htracks hrun⟩

/-- The future of the action `8` is backed while the action `7` is open. -/
theorem future_backed_second :
    ∃ d, runOps [.getEventPipe (ascii "7")] = .ok d
      ∧ ∀ post, ∃ d', Backed (d.getEventPipe (ascii "8")).1 (ascii "8") 1 post d' := by
  refine ⟨_, rfl, ?_⟩
  exact (@future_backed_iff [.getEventPipe (ascii "7")] _ rfl (ascii "8")).mpr (by decide)

/-- The future of a second call for the action `7` is broken when it is handed out. -/
theorem second_future_broken :
    ∃ d, runOps [.getEventPipe (ascii "7")] = .ok d
      ∧ runOps [.getEventPipe (ascii "7"), .getEventPipe (ascii "7")]
        = .ok (d.getEventPipe (ascii "7")).1
      ∧ (d.getEventPipe (ascii "7")).1.shared[(d.getEventPipe (ascii "7")).2]?
        = some (.exception .brokenPromise)
      ∧ ¬ ∃ d', Backed (d.getEventPipe (ascii "7")).1 (ascii "7")
        (d.getEventPipe (ascii "7")).2 [] d' :=
  ⟨_, rfl, rfl, getEventPipe_registered (by decide)⟩

end CppAmi.Proof
