import CppAmi.Lib.Ledger
import CppAmi.Proof.Slots

/-!
# No message is lost, duplicated or altered

A message given to the dispatcher is in a delivered reaction, in a list in progress,
or with the notification callback. `placeOf` books each message by its number, and
the books balance after every operation (`messages_conserved`).

The step is in two parts. The dispatcher first puts the message at the end of what it
has gathered for the ActionID, and then delivers what it has gathered, keeps it, or
throws it away; `settle` says where that takes each message.
-/

namespace CppAmi.Proof

open CppAmi EventDispatcher Ledger

/-! ## Places -/

/-- Where the dispatcher can have a message. -/
inductive Place where
  /-- The `k`-th message of the reaction that a future delivers. -/
  | delivered (future k : Nat)
  /-- The `k`-th message of a list in progress. -/
  | building (actionId : Bytes) (k : Nat)
  /-- The `k`-th message handed to the callback. -/
  | notified (k : Nat)
  deriving DecidableEq

/-- The message at a place of the dispatcher. -/
def messageAt (d : EventDispatcher) : Place → Option Event
  | .delivered future k => ((d.shared[future]?).elim [] Shared.messages)[k]?
  | .building a k =>
    match d.eventMap.lookup a with
    | some (some l) => (listMessages l)[k]?
    | _ => none
  | .notified k => d.notified[k]?

/-- The message at a place of the router. -/
def held (r : Router) : Place → Option Event
  | .delivered future k => ((r.shared[future]?).elim [] Shared.messages)[k]?
  | .building a k => ((r.slot a).elim [] fun fp => fp.2.gathered)[k]?
  | .notified k => r.notified[k]?

theorem held_abs {d : EventDispatcher} (h : WF d) (q : Place) :
    held (abs d) q = messageAt d q := by
  cases q with
  | delivered future k => rfl
  | notified k => rfl
  | building a k =>
      unfold held
      rw [messageAt]
      cases he : d.eventMap.lookup a with
      | none =>
          cases hp : d.promiseMap.lookup a with
          | none => simp [abs, hp]
          | some f => simp [abs, hp, absProgress, he, Progress.gathered]
      | some e =>
          obtain ⟨⟨f, hf⟩, l, rfl⟩ := h.owned a e he
          simp [abs, hf, absProgress, he, Progress.gathered]

/-! ## What recording progress does to the places -/

section Put

variable {r : Router} {a : Bytes} {f : Nat} {p p' : Progress}

theorem held_put_building {b : Bytes} (hb : b ≠ a) (k : Nat) :
    held (r.put a f p') (.building b k) = held r (.building b k) := by
  rw [held, held, put_slot_ne hb]

theorem held_put_delivered {g : Nat} (hg : f ≠ g) (k : Nat) :
    held (r.put a f p') (.delivered g k) = held r (.delivered g k) := by
  rw [held, held, put_shared_ne hg]

theorem held_put_notified (k : Nat) :
    held (r.put a f p') (.notified k) = held r (.notified k) := by
  unfold held
  rw [put_notified]

/-- A pipe that is still open delivers nothing yet. -/
theorem held_pending (h : RouterInv r) (hs : r.slot a = some (f, p)) (k : Nat) :
    held r (.delivered f k) = none := by
  simp [held, h.pending a f p hs, Shared.messages]

theorem held_done_building (outcome : Shared) (k : Nat) :
    held (r.put a f (.done outcome)) (.building a k) = none := by
  simp [held, put_done_slot]

theorem held_done_delivered (h : RouterInv r) (hs : r.slot a = some (f, p)) (outcome : Shared)
    (k : Nat) :
    held (r.put a f (.done outcome)) (.delivered f k) = outcome.messages[k]? := by
  simp [held, Router.put, List.getElem?_set_self (h.lt hs)]

end Put

/-! ## Delivering, keeping and throwing away -/

/-- Where the `k`-th message gathered for `a` goes when progress is recorded on its pipe. -/
def destination (a : Bytes) (f : Nat) : Progress → Nat → Option Place
  | .done (.value (some _)), k => some (.delivered f k)
  | .done _, _ => none
  | _, k => some (.building a k)

/-- Where the message at a place goes. -/
def settle (a : Bytes) (dest : Nat → Option Place) : Place → Option Place
  | .building b k => if b = a then dest k else some (.building b k)
  | q => some q

/-- The places of the response to `a` on the pipe `f`. -/
def Own (a : Bytes) (f : Nat) : Place → Prop
  | .building b _ => b = a
  | .delivered g _ => g = f
  | .notified _ => False

/-- What the places hold once `ms` is all that was gathered for `a`. -/
structure Gathering (r : Router) (a : Bytes) (ms : List Event) (held₁ : Place → Option Event) :
    Prop where
  own : ∀ k, held₁ (.building a k) = ms[k]?
  other : ∀ q, (∀ k, q ≠ .building a k) → held₁ q = held r q

section Settle

variable {r : Router} {a : Bytes} {f : Nat} {p p' : Progress} {ms items : List Event}
  {held₁ : Place → Option Event} {place : Nat → Option Place} {dest : Nat → Option Place}

theorem settle_own (k : Nat) : settle a dest (.building a k) = dest k := by
  simp [settle]

theorem settle_other {q : Place} (hq : ¬ Own a f q) : settle a dest q = some q := by
  cases q with
  | building b k => exact if_neg hq
  | delivered g k => rfl
  | notified k => rfl

theorem held_put_other {q : Place} (hq : ¬ Own a f q) : held (r.put a f p') q = held r q := by
  cases q with
  | building b k => exact held_put_building hq k
  | delivered g k => exact held_put_delivered (Ne.symm hq) k
  | notified k => exact held_put_notified k

/-- Of the response's own places only those of the list hold anything before. -/
theorem Gathering.own_building (hg : Gathering r a ms held₁) (h : RouterInv r)
    (hs : r.slot a = some (f, p)) {q : Place} (hq : Own a f q) (hne : held₁ q ≠ none) :
    ∃ k, q = .building a k := by
  cases q with
  | building b k =>
      cases hq
      exact ⟨k, rfl⟩
  | delivered g k =>
      cases hq
      rw [hg.other _ (by simp), held_pending h hs] at hne
      exact absurd rfl hne
  | notified k => exact hq.elim

theorem Gathering.not_own (hg : Gathering r a ms held₁) {q : Place} (hq : ¬ Own a f q) :
    held₁ q = held r q := by
  refine hg.other q ?_
  intro k hk
  rw [hk] at hq
  exact hq rfl

/-- The books balance after recording progress, if what was gathered goes to its destination and
nothing else turns up in the response's own places. -/
theorem accounts_put (h : RouterInv r) (hs : r.slot a = some (f, p))
    (hg : Gathering r a ms held₁) (hb : Accounts items held₁ place)
    (hinto : ∀ k q, dest k = some q → Own a f q ∧ held (r.put a f p') q = ms[k]?)
    (hinj : ∀ k j q, dest k = some q → dest j = some q → k = j)
    (hback : ∀ q x, Own a f q → held (r.put a f p') q = some x → ∃ k, dest k = some q) :
    Accounts items (held (r.put a f p')) fun i => (place i).bind (settle a dest) := by
  refine hb.move ?_ ?_
  · intro q q' x hq hσ
    by_cases hown : Own a f q
    · obtain ⟨k, rfl⟩ := hg.own_building h hs hown (by rw [hq]; simp)
      rw [settle_own] at hσ
      rw [(hinto k q' hσ).2, ← hg.own, hq]
    · rw [settle_other hown] at hσ
      cases hσ
      rw [held_put_other hown, ← hg.not_own hown, hq]
  · intro q x hq
    by_cases hown : Own a f q
    · obtain ⟨k, hk⟩ := hback q x hown hq
      rw [(hinto k q hk).2, ← hg.own] at hq
      refine ⟨.building a k, hq, by rw [settle_own, hk], ?_⟩
      intro q' hq' hσ
      by_cases hown' : Own a f q'
      · obtain ⟨j, rfl⟩ := hg.own_building h hs hown' hq'
        rw [settle_own] at hσ
        rw [hinj j k q hσ hk]
      · rw [settle_other hown'] at hσ
        cases hσ
        exact absurd hown hown'
    · rw [held_put_other hown, ← hg.not_own hown] at hq
      refine ⟨q, hq, settle_other hown, ?_⟩
      intro q' hq' hσ
      by_cases hown' : Own a f q'
      · obtain ⟨j, rfl⟩ := hg.own_building h hs hown' hq'
        rw [settle_own] at hσ
        exact absurd (hinto j q hσ).1 hown
      · rw [settle_other hown'] at hσ
        exact Option.some.inj hσ

/-- A finished response delivers what was gathered. -/
theorem accounts_deliver (h : RouterInv r) (hs : r.slot a = some (f, p))
    (hg : Gathering r a ms held₁) (hb : Accounts items held₁ place) {reaction : Reaction}
    (hms : reaction.messages = ms) :
    Accounts items (held (r.put a f (.done (.value (some reaction)))))
      fun i => (place i).bind (settle a (destination a f (.done (.value (some reaction))))) := by
  refine accounts_put h hs hg hb ?_ ?_ ?_
  · intro k q hk
    cases hk
    refine ⟨rfl, ?_⟩
    rw [held_done_delivered h hs, ← hms]
    rfl
  · intro k j q hk hj
    cases hk
    cases hj
    rfl
  · intro q x hq hx
    cases q with
    | building b k =>
        cases hq
        rw [held_done_building] at hx
        cases hx
    | delivered g k =>
        cases hq
        exact ⟨k, rfl⟩
    | notified k => exact hq.elim

/-- Nothing is delivered with an exception or a null. -/
theorem destination_cut (a : Bytes) (f : Nat) {outcome : Shared}
    (hempty : ∀ reaction, outcome ≠ .value (some reaction)) (k : Nat) :
    destination a f (.done outcome) k = none := by
  unfold destination
  split
  · rename_i heq
    cases heq
    exact absurd rfl (hempty _)
  · rfl
  · rename_i hne
    exact absurd rfl (hne outcome)

/-- A response cut short throws away what was gathered. -/
theorem accounts_discard (h : RouterInv r) (hs : r.slot a = some (f, p))
    (hg : Gathering r a ms held₁) (hb : Accounts items held₁ place) {outcome : Shared}
    (hempty : ∀ reaction, outcome ≠ .value (some reaction)) :
    Accounts items (held (r.put a f (.done outcome)))
      fun i => (place i).bind (settle a (destination a f (.done outcome))) := by
  have hdest := destination_cut a f hempty
  have hnone : outcome.messages = [] := by
    unfold Shared.messages
    split
    · exact absurd rfl (hempty _)
    · rfl
  refine accounts_put h hs hg hb ?_ ?_ ?_
  · intro k q hk
    rw [hdest] at hk
    cases hk
  · intro k j q hk hj
    rw [hdest] at hk
    cases hk
  · intro q x hq hx
    cases q with
    | building b k =>
        cases hq
        rw [held_done_building] at hx
        cases hx
    | delivered g k =>
        cases hq
        rw [held_done_delivered h hs, hnone] at hx
        cases hx
    | notified k => exact hq.elim

/-- An unfinished response keeps what was gathered. -/
theorem accounts_keep (h : RouterInv r) (hs : r.slot a = some (f, p))
    (hg : Gathering r a ms held₁) (hb : Accounts items held₁ place) (hun : Unfinished a p')
    (hms : p'.gathered = ms) :
    Accounts items (held (r.put a f p'))
      fun i => (place i).bind (settle a (destination a f p')) := by
  obtain ⟨hslot, hshared⟩ := put_unfinished (r := r) (f := f) hun
  have hdest : ∀ k, destination a f p' k = some (.building a k) := by
    intro k
    cases p' with
    | done outcome => exact hun.elim
    | waiting => rfl
    | building l => rfl
  refine accounts_put h hs hg hb ?_ ?_ ?_
  · intro k q hk
    rw [hdest] at hk
    cases hk
    refine ⟨rfl, ?_⟩
    rw [held, hslot, ← hms]
    rfl
  · intro k j q hk hj
    rw [hdest] at hk hj
    cases hk
    cases hj
    rfl
  · intro q x hq hx
    cases q with
    | building b k =>
        cases hq
        exact ⟨k, hdest k⟩
    | delivered g k =>
        cases hq
        rw [held, hshared] at hx
        have hnone := held_pending h hs k
        rw [held] at hnone
        rw [hnone] at hx
        cases hx
    | notified k => exact hq.elim

end Settle

/-! ## The books -/

/-- The message an operation brings in. -/
def messageOf : Op → Option Event
  | .dispatchEvent m => some m
  | _ => none

/-- The messages given to the dispatcher. -/
def messages (ops : List Op) : List Event := ops.filterMap messageOf

/-- Where the messages are after an operation on a router that was given `n` before. -/
def rebook (r : Router) (n : Nat) (place : Nat → Option Place) (op : Op) : Nat → Option Place :=
  match op with
  | .getEventPipe _ => place
  | .dispatchEvent m =>
    match m.actionId with
    | none => Function.update place n (some (.notified r.notified.length))
    | some a =>
      match r.slot a with
      | none => Function.update place n (some (.notified r.notified.length))
      | some (f, p) => fun i =>
        (Function.update place n (some (.building a p.gathered.length)) i).bind
          (settle a (destination a f (p.receive m)))
  | .setExceptionOnPipe a err =>
    match r.slot a with
    | none => place
    | some (f, p) => fun i =>
      (place i).bind (settle a (destination a f (p.close (.exception err))))
  | .setNullOnPipe a =>
    match r.slot a with
    | none => place
    | some (f, p) => fun i => (place i).bind (settle a (destination a f (p.close (.value none))))

/-- A router, and the books on the messages it was given. -/
structure Book where
  router : Router
  items : List Event
  place : Nat → Option Place

def Book.step (b : Book) (op : Op) : Book where
  router := b.router.step op
  items := b.items ++ (messageOf op).toList
  place := rebook b.router b.items.length b.place op

def Book.init : Book := ⟨abs {}, [], fun _ => none⟩

/-- Where each message is after a run. -/
def placeOf (ops : List Op) : Nat → Option Place := (ops.foldl Book.step Book.init).place

/-- The books balance. -/
structure Book.Balanced (b : Book) : Prop where
  inv : RouterInv b.router
  accounts : Accounts b.items (held b.router) b.place

theorem rebook_notified {r : Router} {m : Event}
    (hm : ∀ a, m.actionId = some a → r.slot a = none) (n : Nat) (place : Nat → Option Place) :
    rebook r n place (.dispatchEvent m)
      = Function.update place n (some (.notified r.notified.length)) := by
  rw [rebook]
  cases ha : m.actionId with
  | none => rfl
  | some a => simp only [hm a ha]

theorem rebook_received {r : Router} {m : Event} {a : Bytes} {f : Nat} {p : Progress}
    (hm : m.actionId = some a) (hs : r.slot a = some (f, p)) (n : Nat)
    (place : Nat → Option Place) :
    rebook r n place (.dispatchEvent m) = fun i =>
      (Function.update place n (some (.building a p.gathered.length)) i).bind
        (settle a (destination a f (p.receive m))) := by
  simp only [rebook, hm, hs]

theorem rebook_closed {r : Router} {op : Op} {a : Bytes} {outcome : Shared} {f : Nat}
    {p : Progress} (hop : op.closes = some (a, outcome)) (hs : r.slot a = some (f, p)) (n : Nat)
    (place : Nat → Option Place) :
    rebook r n place op = fun i =>
      (place i).bind (settle a (destination a f (p.close outcome))) := by
  cases op <;> cases hop <;> simp only [rebook, hs]

theorem rebook_idle {r : Router} {op : Op} {a : Bytes} {outcome : Shared}
    (hop : op.closes = some (a, outcome)) (hs : r.slot a = none) (n : Nat)
    (place : Nat → Option Place) : rebook r n place op = place := by
  cases op <;> cases hop <;> simp only [rebook, hs]

theorem messageOf_getEventPipe (a : Bytes) : messageOf (.getEventPipe a) = none := rfl

theorem messageOf_closes {op : Op} {a : Bytes} {outcome : Shared}
    (hop : op.closes = some (a, outcome)) : messageOf op = none := by
  cases op <;> cases hop <;> rfl

/-- An appended element is seen at the last position only. -/
theorem getElem?_concat_ne {α : Type*} (xs : List α) (x : α) {k : Nat} (hk : k ≠ xs.length) :
    (xs ++ [x])[k]? = xs[k]? := by
  by_cases hlt : k < xs.length
  · exact List.getElem?_append_left hlt
  · rw [List.getElem?_eq_none (by rw [List.length_append, List.length_singleton]; omega),
      List.getElem?_eq_none (by omega)]

/-- A new pipe, good or broken, holds no message. -/
theorem held_newPipe {r r' : Router} {result : Shared} (hshared : r'.shared = r.shared ++ [result])
    (hempty : result.messages = []) (hnotified : r'.notified = r.notified)
    (hslot : ∀ a, (r'.slot a).elim [] (fun fp => fp.2.gathered)
      = (r.slot a).elim [] fun fp => fp.2.gathered) (q : Place) : held r' q = held r q := by
  cases q with
  | building a k => rw [held, held, hslot]
  | notified k => rw [held, held, hnotified]
  | delivered g k =>
      rw [held, held, hshared]
      by_cases heq : g = r.shared.length
      · subst heq
        simp [hempty]
      · rw [getElem?_concat_ne _ _ heq]

/-- A message without a pipe is held by the callback. -/
theorem held_notify (r : Router) (m : Event) (q : Place) :
    held (r.notify m) q
      = Function.update (held r) (.notified r.notified.length) (some m) q := by
  by_cases hq : q = .notified r.notified.length
  · subst hq
    simp [held, Router.notify]
  · rw [Function.update_of_ne hq]
    cases q with
    | building a k => rfl
    | delivered g k => rfl
    | notified k =>
        have hk : k ≠ r.notified.length := fun heq => hq (by rw [heq])
        exact getElem?_concat_ne _ _ hk

/-- A message with a pipe joins what was gathered there. -/
theorem gathering_joined {r : Router} {a : Bytes} {f : Nat} {p : Progress}
    (hs : r.slot a = some (f, p)) (m : Event) :
    Gathering r a (p.gathered ++ [m])
      (Function.update (held r) (.building a p.gathered.length) (some m)) := by
  refine ⟨?_, fun q hq => Function.update_of_ne (hq _) _ _⟩
  intro k
  by_cases hk : k = p.gathered.length
  · subst hk
    rw [Function.update_self, List.getElem?_concat_length]
  · rw [Function.update_of_ne (by simp [hk])]
    simp only [held, hs, Option.elim_some]
    exact (getElem?_concat_ne _ _ hk).symm

/-- **The books stay balanced.** -/
theorem balanced_step {b : Book} (h : b.Balanced) (op : Op) : (b.step op).Balanced := by
  have hmove := Router.step_move b.router op
  refine ⟨routerInv_move h.inv hmove, ?_⟩
  show Accounts (b.items ++ (messageOf op).toList) (held (b.router.step op))
    (rebook b.router b.items.length b.place op)
  generalize hr : b.router.step op = r' at hmove
  cases hmove with
  | @opened a hs =>
      rw [messageOf_getEventPipe, Option.toList_none, List.append_nil, rebook]
      refine h.accounts.congr (held_newPipe rfl rfl rfl ?_)
      intro c
      by_cases hca : c = a
      · subst hca
        simp [Router.opened, hs, Progress.gathered]
      · simp [Router.opened, hca]
  | refused hs =>
      rw [messageOf_getEventPipe, Option.toList_none, List.append_nil, rebook]
      exact h.accounts.congr (held_newPipe rfl rfl rfl fun c => rfl)
  | @notified m hm =>
      rw [rebook_notified hm, messageOf, Option.toList_some]
      have hempty : held b.router (.notified b.router.notified.length) = none := by
        simp [held]
      exact (h.accounts.enter hempty m).congr (held_notify b.router m)
  | @received m a f p hm hs =>
      rw [rebook_received hm hs, messageOf, Option.toList_some]
      -- first the message joins what was gathered, then that is settled
      have hempty : held b.router (.building a p.gathered.length) = none := by
        simp [held, hs]
      have henter := h.accounts.enter hempty m
      have hgather := gathering_joined hs m
      rcases gathered_receive (h.inv.unfinished a f p hs) hm with
        ⟨reaction, hdone, hms⟩ | ⟨hun, hms⟩
      · rw [hdone]
        exact accounts_deliver h.inv hs hgather henter hms
      · exact accounts_keep h.inv hs hgather henter hun hms
  | @closed op a outcome f p hop hs =>
      rw [rebook_closed hop hs, messageOf_closes hop, Option.toList_none, List.append_nil]
      have hgather : Gathering b.router a p.gathered (held b.router) :=
        ⟨fun k => by simp [held, hs], fun q _ => rfl⟩
      rw [(h.inv.unfinished a f p hs).close]
      exact accounts_discard h.inv hs hgather h.accounts (closes_no_reaction hop)
  | @idle op a outcome hop hs =>
      rw [rebook_idle hop hs, messageOf_closes hop, Option.toList_none, List.append_nil]
      exact h.accounts

theorem balanced_init : Book.init.Balanced := by
  refine ⟨sound_init.inv, (Accounts.empty _).congr ?_⟩
  intro q
  cases q <;> simp [held, Book.init, abs]

/-! ## What is thrown away -/

theorem settle_none {a : Bytes} {dest : Nat → Option Place} {q : Place}
    (h : settle a dest q = none) : ∃ k, q = .building a k ∧ dest k = none := by
  cases q with
  | building b k =>
      by_cases hba : b = a
      · subst hba
        exact ⟨k, rfl, by rwa [settle_own] at h⟩
      · simp [settle, hba] at h
  | delivered g k => cases h
  | notified k => cases h

/-- What closing a pipe throws away. -/
theorem settle_cut_iff (a : Bytes) (f : Nat) {outcome : Shared}
    (h : ∀ reaction, outcome ≠ .value (some reaction)) (q : Place) :
    settle a (destination a f (.done outcome)) q = none ↔ ∃ k, q = .building a k := by
  constructor
  · intro hq
    obtain ⟨k, hk, _⟩ := settle_none hq
    exact ⟨k, hk⟩
  · rintro ⟨k, rfl⟩
    rw [settle_own, destination_cut a f h]

/-- A message that is received throws nothing away. -/
theorem destination_receive {a : Bytes} {f : Nat} {p : Progress} (hp : Unfinished a p) {m : Event}
    (hm : m.actionId = some a) (k : Nat) : destination a f (p.receive m) k ≠ none := by
  rcases unfinished_receive hp hm with ⟨reaction, hdone⟩ | hun
  · rw [hdone]
    simp [destination]
  · cases hr : p.receive m with
    | done outcome =>
        rw [hr] at hun
        exact hun.elim
    | waiting => simp [destination]
    | building l => simp [destination]

/-- Exactly the messages of a list in progress are thrown away, when its pipe is closed. -/
theorem thrown_away_iff {b : Book} (h : b.Balanced) (op : Op) {i : Nat}
    (hi : i < (b.items ++ (messageOf op).toList).length) :
    rebook b.router b.items.length b.place op i = none ↔
      (i < b.items.length ∧ b.place i = none)
        ∨ ∃ a outcome k, op.closes = some (a, outcome) ∧ b.place i = some (.building a k) := by
  have hmove := Router.step_move b.router op
  generalize b.router.step op = r' at hmove
  cases hmove with
  | opened hs =>
      rw [messageOf_getEventPipe, Option.toList_none, List.append_nil] at hi
      simp [rebook, Op.closes, hi]
  | refused hs =>
      rw [messageOf_getEventPipe, Option.toList_none, List.append_nil] at hi
      simp [rebook, Op.closes, hi]
  | @notified m hm =>
      unfold messageOf at hi
      rw [Option.toList_some, List.length_append, List.length_singleton] at hi
      rw [rebook_notified hm]
      by_cases hlast : i = b.items.length
      · simp [hlast, Op.closes]
      · have hlt : i < b.items.length := by omega
        simp [hlast, hlt, Op.closes]
  | @received m a f p hm hs =>
      unfold messageOf at hi
      rw [Option.toList_some, List.length_append, List.length_singleton] at hi
      rw [rebook_received hm hs]
      have hkeep : ∀ q, settle a (destination a f (p.receive m)) q ≠ none := by
        intro q hq
        obtain ⟨k, _, hk⟩ := settle_none hq
        exact destination_receive (h.inv.unfinished a f p hs) hm k hk
      by_cases hlast : i = b.items.length
      · simp [hlast, Op.closes, hkeep]
      · have hlt : i < b.items.length := by omega
        dsimp only
        rw [Function.update_of_ne hlast]
        cases hp : b.place i with
        | none => simp [Op.closes, hlt]
        | some q => simp [Op.closes, hkeep q]
  | @closed op a outcome f p hop hs =>
      rw [messageOf_closes hop, Option.toList_none, List.append_nil] at hi
      rw [rebook_closed hop hs, hop, (h.inv.unfinished a f p hs).close]
      dsimp only
      cases hp : b.place i with
      | none => simp [hi]
      | some q =>
          rw [Option.bind_some, settle_cut_iff a f (closes_no_reaction hop)]
          constructor
          · rintro ⟨k, rfl⟩
            exact Or.inr ⟨a, outcome, k, rfl, rfl⟩
          · rintro (⟨_, hq⟩ | ⟨c, outcome', k, hc, hq⟩)
            · cases hq
            · cases hc
              cases hq
              exact ⟨k, rfl⟩
  | @idle op a outcome hop hs =>
      rw [messageOf_closes hop, Option.toList_none, List.append_nil] at hi
      rw [rebook_idle hop hs]
      refine ⟨fun hp => Or.inl ⟨hi, hp⟩, ?_⟩
      rintro (⟨_, hp⟩ | ⟨c, outcome', k, hc, hp⟩)
      · exact hp
      · -- the list it would have been in is not there
        rw [hop] at hc
        cases hc
        have := h.accounts.kept i _ _ (List.getElem?_eq_getElem hi) hp
        simp [held, hs] at this

/-! ## Runs -/

theorem book_items (ops : List Op) (b : Book) :
    (ops.foldl Book.step b).items = b.items ++ messages ops := by
  induction ops generalizing b with
  | nil => simp [messages]
  | cons op ops ih =>
      rw [List.foldl_cons, ih, Book.step, messages, messages, List.filterMap_cons]
      cases messageOf op <;> simp

/-- After a run the books are those of its dispatcher. -/
theorem book_run (ops : List Op) :
    ∃ d, runOps ops = .ok d ∧ Sound d ∧ (ops.foldl Book.step Book.init).router = abs d
      ∧ (ops.foldl Book.step Book.init).Balanced := by
  induction ops using List.reverseRecOn with
  | nil => exact ⟨{}, rfl, sound_init, rfl, balanced_init⟩
  | append_singleton ops op ih =>
      obtain ⟨d, hrun, hsound, hrouter, hbal⟩ := ih
      obtain ⟨d', hstep, hsound', hmove⟩ := hsound.apply op
      rw [List.foldl_append, List.foldl_cons, List.foldl_nil]
      refine ⟨d', Run.run_snoc_eq_ok.mpr ⟨d, hrun, hstep⟩, hsound', ?_, balanced_step hbal op⟩
      rw [Book.step, hrouter, hmove.eq_step]

/--
**No message is lost, duplicated or altered.**

After any run the books balance: each message that was not thrown away is at the place
`placeOf` says, unaltered, and each place that has a message has one that was given to
the dispatcher, once. Of what is in a list in progress every message names the list's
ActionID. The next operation hands to the callback just the message that names no
registered ActionID, and throws away just the list in progress of a pipe it closes.
-/
theorem messages_conserved (ops : List Op) :
    ∃ d, runOps ops = .ok d ∧ Accounts (messages ops) (messageAt d) (placeOf ops)
      ∧ (∀ a k m, messageAt d (.building a k) = some m → m.actionId = some a)
      ∧ ∀ op, ∃ d', runOps (ops ++ [op]) = .ok d' ∧ d'.notified = d.notified ++ unrouted d op
        ∧ ∀ i, i < (messages (ops ++ [op])).length →
          (placeOf (ops ++ [op]) i = none ↔
            (i < (messages ops).length ∧ placeOf ops i = none)
              ∨ ∃ a outcome k, op.closes = some (a, outcome)
                ∧ placeOf ops i = some (.building a k)) := by
  obtain ⟨d, hrun, hsound, hrouter, hbal⟩ := book_run ops
  have hitems : (ops.foldl Book.step Book.init).items = messages ops := book_items ops Book.init
  have hheld : held (ops.foldl Book.step Book.init).router = messageAt d := by
    rw [hrouter]
    exact funext (held_abs hsound.wf)
  refine ⟨d, hrun, ?_, ?_, ?_⟩
  · rw [← hitems, ← hheld]
    exact hbal.accounts
  · intro a k m hm
    rw [← held_abs hsound.wf, held] at hm
    cases hs : (abs d).slot a with
    | none => simp [hs] at hm
    | some fp =>
        have hun := hsound.inv.unfinished a fp.1 fp.2 hs
        rw [hs, Option.elim_some] at hm
        cases hp : fp.2 with
        | waiting => simp [hp, Progress.gathered] at hm
        | done outcome => simp [hp, Progress.gathered] at hm
        | building l =>
            rw [hp] at hun hm
            exact hun.2.2 m (List.mem_of_getElem? hm)
  · intro op
    obtain ⟨d', hstep, hsound', hmove⟩ := hsound.apply op
    refine ⟨d', Run.run_snoc_eq_ok.mpr ⟨d, hrun, hstep⟩, notified_step hmove, ?_⟩
    intro i hi
    have hall : messages (ops ++ [op]) = messages ops ++ (messageOf op).toList := by
      unfold messages
      rw [List.filterMap_append]
      cases hop : messageOf op <;> simp [hop]
    have hplace : placeOf (ops ++ [op]) i
        = rebook (ops.foldl Book.step Book.init).router
          (ops.foldl Book.step Book.init).items.length (placeOf ops) op i := by
      unfold placeOf
      rw [List.foldl_append]
      rfl
    rw [hall, ← hitems] at hi
    rw [hplace, ← hitems]
    exact thrown_away_iff hbal op hi

end CppAmi.Proof
