import CppAmi.Proof.Refine

/-!
# The slots over a whole run

`RouterInv` is what holds of the slots in every reachable state. `Tracks` follows one
pipe through a run: which response it stands for while its slot is open, and which
outcome it has once it is closed. A step only moves the pipe of the ActionID it names
(`tracks_move`), so what becomes of a pipe is a function of the operations that name
its ActionID (`run_tracks`).
-/

namespace CppAmi.Proof

open CppAmi EventDispatcher

theorem listMessages_head (m : Event) : listMessages { head := m } = [m] := rfl

theorem listMessages_member {l : EventList} (ht : l.tail = none) (m : Event) :
    listMessages { l with events := l.events ++ [m] } = listMessages l ++ [m] := by
  simp [listMessages, Reaction.messages, ht]

theorem listMessages_tail {l : EventList} (ht : l.tail = none) (m : Event) :
    listMessages { l with tail := some m } = listMessages l ++ [m] := by
  simp [listMessages, Reaction.messages, ht]

/-- An unfinished response to `a`: a list in progress has no tail, an accepted head, and nothing
but messages of `a`. -/
def Unfinished (a : Bytes) : Progress → Prop
  | .waiting => True
  | .building l =>
    l.tail = none ∧ l.head.accepted = true ∧ ∀ m ∈ listMessages l, m.actionId = some a
  | .done _ => False

theorem Unfinished.close {a : Bytes} {p : Progress} (h : Unfinished a p) (outcome : Shared) :
    p.close outcome = .done outcome := by
  cases p with
  | done outcome => exact h.elim
  | waiting => rfl
  | building l => rfl

/-- One more message of `a` is added to what was gathered, and the response to `a` is finished
with that or still unfinished. -/
theorem gathered_receive {a : Bytes} {p : Progress} (hp : Unfinished a p) {m : Event}
    (hm : m.actionId = some a) :
    (∃ reaction, p.receive m = .done (.value (some reaction))
        ∧ reaction.messages = p.gathered ++ [m])
      ∨ (Unfinished a (p.receive m) ∧ (p.receive m).gathered = p.gathered ++ [m]) := by
  cases p with
  | done outcome => exact hp.elim
  | waiting =>
      rw [Progress.receive]
      split
      · exact Or.inl ⟨_, rfl, rfl⟩
      · split
        · rename_i hacc
          refine Or.inr ⟨⟨rfl, hacc, ?_⟩, rfl⟩
          intro x hx
          rw [listMessages_head, List.mem_singleton] at hx
          rw [hx, hm]
        · exact Or.inl ⟨_, rfl, rfl⟩
  | building l =>
      obtain ⟨ht, hacc, hall⟩ := hp
      rw [Progress.receive]
      split
      · exact Or.inl ⟨_, rfl, listMessages_tail ht m⟩
      · refine Or.inr ⟨⟨ht, hacc, ?_⟩, listMessages_member ht m⟩
        intro x hx
        rw [listMessages_member ht, List.mem_append, List.mem_singleton] at hx
        rcases hx with hx | hx
        · exact hall x hx
        · rw [hx, hm]

theorem unfinished_receive {a : Bytes} {p : Progress} (hp : Unfinished a p) {m : Event}
    (hm : m.actionId = some a) :
    (∃ r, p.receive m = .done (.value (some r))) ∨ Unfinished a (p.receive m) := by
  rcases gathered_receive hp hm with ⟨r, hr, _⟩ | ⟨hun, _⟩
  · exact Or.inl ⟨r, hr⟩
  · exact Or.inr hun

theorem receive_done_or {a : Bytes} {p : Progress} (hp : Unfinished a p) {m : Event}
    (hm : m.actionId = some a) : (∃ o, p.receive m = .done o) ∨ Unfinished a (p.receive m) := by
  rcases unfinished_receive hp hm with ⟨r, hr⟩ | hun
  · exact Or.inl ⟨_, hr⟩
  · exact Or.inr hun

theorem closes_ne_pending {op : Op} {a : Bytes} {outcome : Shared}
    (h : op.closes = some (a, outcome)) : outcome ≠ .pending := by
  cases op <;> cases h <;> simp

theorem closes_no_reaction {op : Op} {a : Bytes} {outcome : Shared}
    (hop : op.closes = some (a, outcome)) (reaction : Reaction) :
    outcome ≠ .value (some reaction) := by
  cases op <;> cases hop <;> simp

/-! ## What holds of the slots in every reachable state -/

structure RouterInv (r : Router) : Prop where
  /-- An open pipe is not satisfied yet. -/
  pending : ∀ a f p, r.slot a = some (f, p) → r.shared[f]? = some .pending
  /-- No two ActionIDs share a pipe. -/
  inj : ∀ a b f p q, r.slot a = some (f, p) → r.slot b = some (f, q) → a = b
  /-- A slot holds an unfinished response to its own ActionID. -/
  unfinished : ∀ a f p, r.slot a = some (f, p) → Unfinished a p

theorem RouterInv.lt {r : Router} (h : RouterInv r) {a : Bytes} {f : Nat} {p : Progress}
    (hs : r.slot a = some (f, p)) : f < r.shared.length :=
  (List.getElem?_eq_some_iff.mp (h.pending a f p hs)).1

/-- A slot that is open after a registration has just been opened, or was open before. -/
theorem opened_slot {r : Router} {a b : Bytes} {f : Nat} {p : Progress}
    (h : (r.opened a).slot b = some (f, p)) :
    (b = a ∧ f = r.shared.length ∧ p = .waiting) ∨ r.slot b = some (f, p) := by
  by_cases hba : b = a
  · subst hba
    simp only [Router.opened, Function.update_self, Option.some.injEq, Prod.mk.injEq] at h
    exact Or.inl ⟨rfl, h.1.symm, h.2.symm⟩
  · simp only [Router.opened, Function.update_of_ne hba] at h
    exact Or.inr h

theorem routerInv_opened {r : Router} (h : RouterInv r) {a : Bytes} : RouterInv (r.opened a) where
  pending := by
    intro b f p hb
    rcases opened_slot hb with ⟨_, rfl, _⟩ | hold
    · simp [Router.opened]
    · unfold Router.opened
      rw [List.getElem?_append_left (h.lt hold)]
      exact h.pending b f p hold
  inj := by
    intro b c f p q hb hc
    rcases opened_slot hb with ⟨hba, hf, _⟩ | hb
    · rcases opened_slot hc with ⟨hca, _, _⟩ | hc
      · rw [hba, hca]
      · have := h.lt hc
        omega
    · rcases opened_slot hc with ⟨_, hf, _⟩ | hc
      · have := h.lt hb
        omega
      · exact h.inj b c f p q hb hc
  unfinished := by
    intro b f p hb
    rcases opened_slot hb with ⟨_, _, rfl⟩ | hold
    · trivial
    · exact h.unfinished b f p hold

theorem routerInv_refused {r : Router} (h : RouterInv r) : RouterInv r.refused := by
  refine ⟨?_, h.inj, h.unfinished⟩
  intro a f p hs
  simp only [Router.refused]
  rw [List.getElem?_append_left (h.lt hs)]
  exact h.pending a f p hs

@[simp] theorem put_notified (r : Router) (a : Bytes) (f : Nat) (p : Progress) :
    (r.put a f p).notified = r.notified := by
  cases p <;> rfl

theorem put_done_slot (r : Router) (a : Bytes) (f : Nat) (outcome : Shared) :
    (r.put a f (.done outcome)).slot a = none := by
  simp [Router.put]

theorem put_unfinished {r : Router} {a : Bytes} {f : Nat} {p : Progress} (hp : Unfinished a p) :
    (r.put a f p).slot a = some (f, p) ∧ (r.put a f p).shared = r.shared := by
  cases p with
  | done outcome => exact hp.elim
  | waiting => exact ⟨Function.update_self a _ r.slot, rfl⟩
  | building l => exact ⟨Function.update_self a _ r.slot, rfl⟩

/-- Recording progress leaves every other slot alone. -/
theorem put_slot_ne {r : Router} {a b : Bytes} {f : Nat} {p : Progress} (h : b ≠ a) :
    (r.put a f p).slot b = r.slot b := by
  cases p <;> exact Function.update_of_ne h _ _

/-- Recording progress leaves every other pipe alone. -/
theorem put_shared_ne {r : Router} {a : Bytes} {f g : Nat} {p : Progress} (h : f ≠ g) :
    (r.put a f p).shared[g]? = r.shared[g]? := by
  cases p with
  | done outcome => exact List.getElem?_set_ne h
  | waiting => rfl
  | building l => rfl

/-- A slot that is open after progress was recorded is the one it was recorded in, or was open
before. -/
theorem put_slot {r : Router} {a b : Bytes} {f g : Nat} {p' q : Progress}
    (hp' : (∃ o, p' = .done o) ∨ Unfinished a p') (h : (r.put a f p').slot b = some (g, q)) :
    (b = a ∧ g = f ∧ q = p' ∧ Unfinished a p') ∨ (b ≠ a ∧ r.slot b = some (g, q)) := by
  by_cases hba : b = a
  · rcases hp' with ⟨o, rfl⟩ | hun
    · rw [hba, put_done_slot] at h
      cases h
    · rw [hba, (put_unfinished hun).1] at h
      cases h
      exact Or.inl ⟨hba, rfl, rfl, hun⟩
  · rw [put_slot_ne hba] at h
    exact Or.inr ⟨hba, h⟩

theorem routerInv_put {r : Router} (h : RouterInv r) {a : Bytes} {f : Nat} {p p' : Progress}
    (hs : r.slot a = some (f, p)) (hp' : (∃ o, p' = .done o) ∨ Unfinished a p') :
    RouterInv (r.put a f p') where
  pending := by
    intro b g q hb
    rcases put_slot hp' hb with ⟨_, rfl, _, hun⟩ | ⟨hba, hold⟩
    · rw [(put_unfinished hun).2]
      exact h.pending a g p hs
    · have hfg : f ≠ g := by
        intro heq
        subst heq
        exact hba (h.inj b a f q p hold hs)
      rw [put_shared_ne hfg]
      exact h.pending b g q hold
  inj := by
    intro b c g q q' hb hc
    rcases put_slot hp' hb with ⟨hba, rfl, _, _⟩ | ⟨_, hold⟩
    · rcases put_slot hp' hc with ⟨hca, _, _, _⟩ | ⟨_, hold'⟩
      · rw [hba, hca]
      · rw [hba]
        exact h.inj a c g p q' hs hold'
    · rcases put_slot hp' hc with ⟨hca, rfl, _, _⟩ | ⟨_, hold'⟩
      · rw [hca]
        exact h.inj b a g q p hold hs
      · exact h.inj b c g q q' hold hold'
  unfinished := by
    intro b g q hb
    rcases put_slot hp' hb with ⟨rfl, _, rfl, hun⟩ | ⟨_, hold⟩
    · exact hun
    · exact h.unfinished b g q hold

/-- **The slots stay well formed.** -/
theorem routerInv_move {r r' : Router} {op : Op} (h : RouterInv r) (hmove : Router.Move r op r') :
    RouterInv r' := by
  cases hmove with
  | opened hs => exact routerInv_opened h
  | refused hs => exact routerInv_refused h
  | notified hm => exact ⟨h.pending, h.inj, h.unfinished⟩
  | @received m a f p hm hs =>
      exact routerInv_put h hs (receive_done_or (h.unfinished a f p hs) hm)
  | @closed op a outcome f p hop hs =>
      exact routerInv_put h hs (Or.inl ⟨outcome, (h.unfinished a f p hs).close outcome⟩)
  | idle hop hs => exact h

/-- **Where an open slot comes from:** it was as it is, is new, or has got a message. -/
theorem slot_cases {r r' : Router} {op : Op} (h : RouterInv r) (hmove : Router.Move r op r')
    {a : Bytes} {f : Nat} {p' : Progress} (hs' : r'.slot a = some (f, p')) :
    r.slot a = some (f, p')
      ∨ (op = .getEventPipe a ∧ f = r.shared.length ∧ p' = .waiting)
      ∨ ∃ m p, op = .dispatchEvent m ∧ m.actionId = some a ∧ r.slot a = some (f, p)
        ∧ p.receive m = p' ∧ Unfinished a p' := by
  cases hmove with
  | @opened b hs =>
      rcases opened_slot hs' with ⟨rfl, hf, hwait⟩ | hold
      · exact Or.inr (Or.inl ⟨rfl, hf, hwait⟩)
      · exact Or.inl hold
  | refused hs => exact Or.inl hs'
  | notified hm => exact Or.inl hs'
  | @received m b g q hm hs =>
      rcases put_slot (receive_done_or (h.unfinished b g q hs) hm) hs' with
        ⟨rfl, rfl, rfl, hun⟩ | ⟨_, hold⟩
      · exact Or.inr (Or.inr ⟨m, q, rfl, hm, hs, rfl, hun⟩)
      · exact Or.inl hold
  | @closed op b outcome g q hop hs =>
      have hclose := (h.unfinished b g q hs).close outcome
      rcases put_slot (Or.inl ⟨outcome, hclose⟩) hs' with ⟨_, _, _, hun⟩ | ⟨_, hold⟩
      · rw [hclose] at hun
        exact hun.elim
      · exact Or.inl hold
  | idle hop hs => exact Or.inl hs'

/-- An open pipe was open before, or has just been registered. -/
theorem slot_origin {r r' : Router} {op : Op} (h : RouterInv r) (hmove : Router.Move r op r')
    {a : Bytes} {f : Nat} {p' : Progress} (hs' : r'.slot a = some (f, p')) :
    (∃ p, r.slot a = some (f, p)) ∨ (op = .getEventPipe a ∧ f = r.shared.length) := by
  rcases slot_cases h hmove hs' with hold | ⟨hop, hf, _⟩ | ⟨_, p, _, _, hs, _, _⟩
  · exact Or.inl ⟨p', hold⟩
  · exact Or.inr ⟨hop, hf⟩
  · exact Or.inl ⟨p, hs⟩

/-- **Where a delivered reaction comes from:** it was there, or a message has completed it. -/
theorem reaction_origin {r r' : Router} {op : Op} (h : RouterInv r) (hmove : Router.Move r op r')
    {reaction : Reaction} (hmem : Shared.value (some reaction) ∈ r'.shared) :
    Shared.value (some reaction) ∈ r.shared
      ∨ ∃ m a f p, op = .dispatchEvent m ∧ m.actionId = some a ∧ r.slot a = some (f, p)
        ∧ p.receive m = .done (.value (some reaction)) := by
  cases hmove with
  | opened hs =>
      rcases List.mem_append.mp hmem with hold | hnew
      · exact Or.inl hold
      · simp at hnew
  | refused hs =>
      rcases List.mem_append.mp hmem with hold | hnew
      · exact Or.inl hold
      · simp at hnew
  | notified hm => exact Or.inl hmem
  | @received m a f p hm hs =>
      rcases receive_done_or (h.unfinished a f p hs) hm with ⟨o, ho⟩ | hun
      · rw [ho] at hmem
        rcases List.mem_or_eq_of_mem_set hmem with hold | hnew
        · exact Or.inl hold
        · exact Or.inr ⟨m, a, f, p, rfl, hm, hs, by rw [ho, hnew]⟩
      · rw [(put_unfinished hun).2] at hmem
        exact Or.inl hmem
  | @closed op a outcome f p hop hs =>
      rw [(h.unfinished a f p hs).close outcome] at hmem
      rcases List.mem_or_eq_of_mem_set hmem with hold | hnew
      · exact Or.inl hold
      · exact absurd hnew.symm (closes_no_reaction hop reaction)
  | idle hop hs => exact Or.inl hmem

/-! ## Following one pipe -/

/-- Pipe `f` of ActionID `a` stands for the response `p`. -/
def Tracks (r : Router) (a : Bytes) (f : Nat) : Progress → Prop
  | .done outcome => r.shared[f]? = some outcome ∧ outcome ≠ .pending
  | p => r.slot a = some (f, p)

/-- What the future of a tracked pipe reports. -/
theorem Tracks.shared {r : Router} (h : RouterInv r) {a : Bytes} {f : Nat} {p : Progress}
    (ht : Tracks r a f p) : r.shared[f]? = some p.outcome := by
  cases p with
  | done outcome => exact ht.1
  | waiting => exact h.pending a f _ ht
  | building l => exact h.pending a f _ ht

theorem Tracks.outcome_eq {r : Router} (h : RouterInv r) {a : Bytes} {f : Nat} {p : Progress}
    (ht : Tracks r a f p) {outcome : Shared} (hf : r.shared[f]? = some outcome) :
    p.outcome = outcome := by
  rw [ht.shared h] at hf
  exact Option.some.inj hf

/-- While the response is unfinished its slot is open; once it is finished the pipe is not in
the slots any more. -/
theorem Tracks.cases {r : Router} (h : RouterInv r) {a : Bytes} {f : Nat} {p : Progress}
    (ht : Tracks r a f p) :
    (Unfinished a p ∧ r.slot a = some (f, p))
      ∨ ∃ outcome, p = .done outcome ∧ r.shared[f]? = some outcome ∧ outcome ≠ .pending
        ∧ ∀ b g q, r.slot b = some (g, q) → g ≠ f := by
  cases p with
  | done outcome =>
      refine Or.inr ⟨outcome, rfl, ht.1, ht.2, ?_⟩
      intro b g q hb heq
      have := h.pending b g q hb
      rw [heq, ht.1] at this
      exact ht.2 (Option.some.inj this)
  | waiting => exact Or.inl ⟨trivial, ht⟩
  | building l => exact Or.inl ⟨h.unfinished a f _ ht, ht⟩

theorem tracks_of_unfinished {r : Router} {a : Bytes} {f : Nat} {p : Progress}
    (hun : Unfinished a p) (hs : r.slot a = some (f, p)) : Tracks r a f p := by
  cases p with
  | done outcome => exact hun.elim
  | waiting => exact hs
  | building l => exact hs

/-- What a step leaves alone: the slot while it is open, the outcome once it is there. -/
theorem Tracks.frame {r r' : Router} (h : RouterInv r) {a : Bytes} {f : Nat} {p : Progress}
    (ht : Tracks r a f p) (hslot : ∀ fp, r.slot a = some fp → r'.slot a = some fp)
    (hshared : (∀ b g q, r.slot b = some (g, q) → g ≠ f) → r'.shared[f]? = r.shared[f]?) :
    Tracks r' a f p := by
  rcases ht.cases h with ⟨hun, hs⟩ | ⟨outcome, rfl, ho, hne, hout⟩
  · exact tracks_of_unfinished hun (hslot _ hs)
  · exact ⟨by rw [hshared hout, ho], hne⟩

theorem done_step (outcome : Shared) (op : PipeOp) :
    (Progress.done outcome).step op = .done outcome := by
  cases op <;> rfl

/-- Progress recorded for `b` moves the pipe of `a` by the same operation if `a` is `b`. -/
theorem tracks_put {r : Router} (h : RouterInv r) {a b : Bytes} {f g : Nat} {p q : Progress}
    (op : PipeOp) (ht : Tracks r a f p) (hs : r.slot b = some (g, q))
    (hq : Unfinished b (q.step op) ∨ ∃ o, q.step op = .done o ∧ o ≠ .pending) :
    Tracks (r.put b g (q.step op)) a f (if b = a then p.step op else p) := by
  by_cases hba : b = a
  · subst hba
    rw [if_pos rfl]
    rcases ht.cases h with ⟨hun, hs'⟩ | ⟨outcome, rfl, ho, hne, hout⟩
    · rw [hs] at hs'
      cases hs'
      rcases hq with hq | ⟨o, hq, ho⟩
      · exact tracks_of_unfinished hq (put_unfinished hq).1
      · rw [hq]
        exact ⟨List.getElem?_set_self (h.lt hs), ho⟩
    · rw [done_step]
      exact ⟨by rw [put_shared_ne (hout b g q hs), ho], hne⟩
  · rw [if_neg hba]
    refine ht.frame h ?_ fun hout => put_shared_ne (hout b g q hs)
    intro fp hfp
    rw [put_slot_ne (Ne.symm hba), hfp]

theorem onPipe_dispatch {m : Event} {b : Bytes} (hm : m.actionId = some b) (a : Bytes) :
    (Op.dispatchEvent m).onPipe a = if b = a then some (.message m) else none := by
  simp [Op.onPipe, hm]

theorem onPipe_closes {op : Op} {b : Bytes} {outcome : Shared}
    (hop : op.closes = some (b, outcome)) (a : Bytes) :
    op.onPipe a = if b = a then some (.close outcome) else none := by
  cases op <;> cases hop <;> rfl

theorem elim_ite (b a : Bytes) (op : PipeOp) (p : Progress) :
    (if b = a then some op else none).elim p p.step = if b = a then p.step op else p := by
  split <;> rfl

/-- **A step moves a pipe only by the operation that names its ActionID.** -/
theorem tracks_move {r r' : Router} {op : Op} (h : RouterInv r) (hmove : Router.Move r op r')
    {a : Bytes} {f : Nat} {p : Progress} (ht : Tracks r a f p) :
    Tracks r' a f ((op.onPipe a).elim p p.step) := by
  cases hmove with
  | @opened b hs =>
      refine ht.frame h ?_ ?_
      · intro fp hfp
        have hab : a ≠ b := by
          intro heq
          subst heq
          rw [hs] at hfp
          cases hfp
        simp only [Router.opened, Function.update_of_ne hab, hfp]
      · intro _
        exact List.getElem?_append_left (List.getElem?_eq_some_iff.mp (ht.shared h)).1
  | refused hs =>
      refine ht.frame h (fun fp hfp => hfp) ?_
      intro _
      exact List.getElem?_append_left (List.getElem?_eq_some_iff.mp (ht.shared h)).1
  | @notified m hm =>
      have hsame : Tracks (r.notify m) a f p := ht.frame h (fun _ hfp => hfp) fun _ => rfl
      by_cases hma : m.actionId = some a
      · -- the pipe of `a` is closed, and a finished response takes no more messages
        rcases ht.cases h with ⟨_, hs⟩ | ⟨outcome, rfl, _, _, _⟩
        · rw [hm a hma] at hs
          cases hs
        · simp only [Op.onPipe, if_pos hma, Option.elim_some, done_step]
          exact hsame
      · simpa only [Op.onPipe, if_neg hma, Option.elim_none] using hsame
  | @received m b g q hm hs =>
      rw [onPipe_dispatch hm, elim_ite]
      refine tracks_put h (.message m) ht hs ?_
      rcases unfinished_receive (h.unfinished b g q hs) hm with ⟨x, hx⟩ | hun
      · exact Or.inr ⟨_, hx, by simp⟩
      · exact Or.inl hun
  | @closed op b outcome g q hop hs =>
      rw [onPipe_closes hop, elim_ite]
      exact tracks_put h (.close outcome) ht hs
        (Or.inr ⟨outcome, (h.unfinished b g q hs).close outcome, closes_ne_pending hop⟩)
  | @idle op b outcome hop hs =>
      rw [onPipe_closes hop, elim_ite]
      split
      · -- nothing is open under `a`, so its response is finished
        rename_i hba
        subst hba
        rcases ht.cases h with ⟨_, hs'⟩ | ⟨outcome', rfl, ho, hne, _⟩
        · rw [hs] at hs'
          cases hs'
        · exact ⟨ho, hne⟩
      · exact ht

/-! ## Runs of the dispatcher -/

/-- What holds of every reachable dispatcher. -/
structure Sound (d : EventDispatcher) : Prop where
  wf : WF d
  inv : RouterInv (abs d)

theorem routerInv_init : RouterInv (abs {}) where
  pending := by
    intro a f p h
    exact absurd h (by simp [abs])
  inj := by
    intro a b f p q h _
    exact absurd h (by simp [abs])
  unfinished := by
    intro a f p h
    exact absurd h (by simp [abs])

theorem sound_init : Sound {} := ⟨wf_init, routerInv_init⟩

theorem Sound.apply {d : EventDispatcher} (h : Sound d) (op : Op) :
    ∃ d', d.apply op = .ok d' ∧ Sound d' ∧ Router.Move (abs d) op (abs d') := by
  obtain ⟨d', hstep, hwf, hmove⟩ := apply_refines h.wf op
  exact ⟨d', hstep, ⟨hwf, routerInv_move h.inv hmove⟩, hmove⟩

theorem Sound.step {d d' : EventDispatcher} {op : Op} (h : Sound d) (hstep : d.apply op = .ok d') :
    Sound d' ∧ Router.Move (abs d) op (abs d') := by
  obtain ⟨e, he, hsound, hmove⟩ := h.apply op
  rw [he] at hstep
  cases hstep
  exact ⟨hsound, hmove⟩

/-- Every run returns, in a sound state. -/
theorem run_sound {d : EventDispatcher} (h : Sound d) (ops : List Op) :
    ∃ d', Run.run EventDispatcher.apply d ops = .ok d' ∧ Sound d' :=
  Run.run_total (fun d op h => by
    obtain ⟨d', hstep, hsound, _⟩ := h.apply op
    exact ⟨d', hstep, hsound⟩) ops h

theorem runOps_sound {ops : List Op} {d : EventDispatcher} (h : runOps ops = .ok d) : Sound d := by
  obtain ⟨d', hrun, hsound⟩ := run_sound sound_init ops
  unfold runOps at h
  rw [hrun] at h
  cases h
  exact hsound

theorem runOps_append {pre post : List Op} {d d' : EventDispatcher} (hpre : runOps pre = .ok d)
    (hpost : Run.run EventDispatcher.apply d post = .ok d') : runOps (pre ++ post) = .ok d' :=
  Run.run_append_eq_ok.mpr ⟨d, hpre, hpost⟩

/-- **The run lemma for one pipe:** it follows the operations on its own ActionID. -/
theorem run_tracks {d d' : EventDispatcher} (h : Sound d) {a : Bytes} {f : Nat} {p : Progress}
    (ht : Tracks (abs d) a f p) {ops : List Op}
    (hrun : Run.run EventDispatcher.apply d ops = .ok d') :
    Sound d' ∧ Tracks (abs d') a f ((ops.filterMap (Op.onPipe a)).foldl Progress.step p) := by
  refine Run.run_simulate (R := fun d p => Sound d ∧ Tracks (abs d) a f p)
    ?_ ⟨h, ht⟩ hrun
  intro d p op d' hR hstep
  obtain ⟨hsound, hmove⟩ := hR.1.step hstep
  exact ⟨hsound, tracks_move hR.1.inv hmove hR.2⟩

/-! ## What goes to the callback -/

/-- What an operation hands to the callback: the message that names no registered ActionID. -/
def unrouted (d : EventDispatcher) : Op → List Event
  | .dispatchEvent m =>
    match m.actionId with
    | none => [m]
    | some a => if a ∈ d.promiseMap then [] else [m]
  | _ => []

theorem notified_step {d d' : EventDispatcher} {op : Op}
    (hmove : Router.Move (abs d) op (abs d')) : d'.notified = d.notified ++ unrouted d op := by
  rw [← abs_notified, ← abs_notified]
  generalize abs d' = r' at hmove
  cases hmove with
  | opened hs => exact (List.append_nil _).symm
  | refused hs => exact (List.append_nil _).symm
  | @notified m hm =>
      have hall : unrouted d (.dispatchEvent m) = [m] := by
        rw [unrouted]
        cases ha : m.actionId with
        | none => rfl
        | some a => exact if_neg (abs_slot_none_iff.mp (hm a ha))
      rw [hall]
      rfl
  | @received m a f p hm hs =>
      have hmem : a ∈ d.promiseMap := by
        by_contra hfree
        rw [abs_slot_none_iff.mpr hfree] at hs
        cases hs
      rw [put_notified]
      simp [unrouted, hm, hmem]
  | @closed op a outcome f p hop hs =>
      rw [put_notified]
      cases op <;> cases hop <;> simp [unrouted]
  | @idle op a outcome hop hs =>
      cases op <;> cases hop <;> simp [unrouted]

theorem unrouted_mem {d : EventDispatcher} {op : Op} {m : Event} (h : m ∈ unrouted d op) :
    op = .dispatchEvent m ∧ ∀ a, m.actionId = some a → a ∉ d.promiseMap := by
  cases op with
  | dispatchEvent m' =>
      rw [unrouted] at h
      split at h
      · rename_i hnone
        rw [List.mem_singleton.mp h]
        exact ⟨rfl, fun a ha => by rw [hnone] at ha; cases ha⟩
      · rename_i b hb
        split at h
        · cases h
        · rename_i hfree
          rw [List.mem_singleton.mp h]
          exact ⟨rfl, fun a ha => by rw [hb] at ha; cases ha; exact hfree⟩
  | getEventPipe a => cases h
  | setExceptionOnPipe a err => cases h
  | setNullOnPipe a => cases h

end CppAmi.Proof
