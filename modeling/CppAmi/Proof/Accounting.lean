import CppAmi.Proof.Conservation
import CppAmi.Proof.EndToEnd
import CppAmi.Proof.Shutdown

/-!
# Where every message that was read has gone

The books of the dispatcher balance in every world: each message that was dispatched is in
one delivered reaction, in one list in progress or with the callbacks, or it was thrown
away. That happens to the messages of a list whose call has given up, and to no others. So
the same holds of the bytes of a connection (`received_accounted`).
-/

namespace CppAmi.Proof

open CppAmi EventDispatcher StreamParser KeyValDict World Connection Ledger

variable {ι : Type} [DecidableEq ι] {calls : ι → Call} {w w' : World ι} {l : CppAmi.Label ι}

/-! ## Calls that give up -/

/-- Only the timed overload waits with a limit. -/
def TimedWaits (calls : ι → Call) (w : World ι) : Prop :=
  ∀ i f, w.pc i = .waiting f ∨ w.pc i = .timedOut f → (calls i).timeout.isSome

theorem timedWaits_turn (h : TimedWaits calls w) (ht : Turn calls w l w') :
    TimedWaits calls w' := by
  intro i f hpc'
  by_cases hi : l.caller = some i
  · cases ht with
    | write hpc =>
        cases hi
        simp only [goto, Function.update_self] at hpc'
        split at hpc'
        · assumption
        · rcases hpc' with hpc' | hpc' <;> cases hpc'
    | waitTimeout hpc hpend =>
        cases hi
        exact h i _ (Or.inl hpc)
    | emit => cases hi
    | dispatch => cases hi
    | _ =>
        cases hi
        simp [goto] at hpc'
  · rw [(ht.other hi).1] at hpc'
    exact h i f hpc'

/-- A call that is past its wait stays there. -/
theorem Turn.settled (ht : Turn calls w l w') {i : ι} (hsettled : (w.pc i).Settled) :
    (w'.pc i).Settled := by
  by_cases hi : l.caller = some i
  · have hadv := ht.advance hi
    generalize w.pc i = pc at hadv hsettled
    generalize w'.pc i = pc' at hadv
    cases hadv with
    | returned => trivial
    | threw => trivial
    | _ => exact hsettled.elim
  · rw [(ht.other hi).1]
    exact hsettled

theorem Turn.gaveUp (ht : Turn calls w l w') {m : Event} (h : GaveUp calls w.pc m) :
    GaveUp calls w'.pc m := by
  obtain ⟨i, hid, htimed, hsettled⟩ := h
  exact ⟨i, hid, htimed, ht.settled hsettled⟩

/-- Only a call that gives up closes a pipe. -/
theorem Turn.closes (hwaits : TimedWaits calls w) (ht : Turn calls w l w') {op : Op} {a : Bytes}
    {outcome : Shared} (hop : opOf calls w l = some op) (hcloses : op.closes = some (a, outcome))
    {m : Event} (hm : m.actionId = some a) : GaveUp calls w'.pc m := by
  cases ht with
  | @setExceptionOnPipe i f d hpc hd =>
      cases hop
      cases hcloses
      refine ⟨i, hm, hwaits i f (Or.inr hpc), ?_⟩
      simp only [goto, Function.update_self]
      trivial
  | getEventPipe =>
      cases hop
      cases hcloses
  | dispatch hhead hd =>
      rw [opOf, hhead] at hop
      cases hop
      cases hcloses
  | _ => cases hop

/-- What a turn takes is what its operation is given. -/
theorem Turn.given (ht : Turn calls w l w') :
    w'.delivered.map Prod.snd
      = w.delivered.map Prod.snd ++ ((opOf calls w l).bind messageOf).toList := by
  cases ht with
  | dispatch hhead hd =>
      rw [opOf, hhead, List.map_append]
      rfl
  | _ => exact (List.append_nil _).symm

/-! ## The books -/

/-- What is in a list in progress names the ActionID of the list. -/
theorem building_named {r : Router} (h : RouterInv r) {a : Bytes} {k : Nat} {m : Event}
    (hm : held r (.building a k) = some m) : m.actionId = some a := by
  rw [held] at hm
  cases hs : r.slot a with
  | none => simp [hs] at hm
  | some fp =>
      have hun := h.unfinished a fp.1 fp.2 hs
      rw [hs, Option.elim_some] at hm
      cases hp : fp.2 with
      | waiting => simp [hp, Progress.gathered] at hm
      | done outcome => simp [hp, Progress.gathered] at hm
      | building l =>
          rw [hp] at hun hm
          exact hun.2.2 m (List.mem_of_getElem? hm)

/-- An operation throws away only what is in the list of the pipe that it closes. -/
theorem thrown_away {b : Book} (h : b.Balanced) {op : Op} {n : Nat} {m : Event}
    (hm : (b.step op).items[n]? = some m) (hnone : (b.step op).place n = none) :
    (b.items[n]? = some m ∧ b.place n = none)
      ∨ ∃ a outcome, op.closes = some (a, outcome) ∧ m.actionId = some a := by
  have hn := (List.getElem?_eq_some_iff.mp hm).1
  rcases (thrown_away_iff h op hn).mp hnone with ⟨hlt, hplace⟩ | ⟨a, outcome, k, hcloses, hplace⟩
  · refine Or.inl ⟨?_, hplace⟩
    rw [← hm, Book.step, List.getElem?_append_left hlt]
  · refine Or.inr ⟨a, outcome, hcloses, ?_⟩
    rw [Book.step, messageOf_closes hcloses, Option.toList_none, List.append_nil] at hm
    exact building_named h.inv (h.accounts.kept n m _ hm hplace)

/-- The books of a world balance, and nothing was thrown away but for a call that gave up. -/
structure Booked (calls : ι → Call) (w : World ι) (b : Book) : Prop where
  router : b.router = abs w.dispatcher
  balanced : b.Balanced
  items : b.items = w.delivered.map Prod.snd
  thrown : ∀ n m, b.items[n]? = some m → b.place n = none → GaveUp calls w.pc m

theorem booked_turn {b : Book} (hs : Sound w.dispatcher) (hwaits : TimedWaits calls w)
    (h : Booked calls w b) (ht : Turn calls w l w') : ∃ b', Booked calls w' b' := by
  have hgiven := ht.given
  rcases ht.dispatcher with ⟨hop, hd⟩ | ⟨op, hop, hd⟩
  · rw [hop, Option.bind_none, Option.toList_none, List.append_nil] at hgiven
    refine ⟨b, by rw [h.router, hd], h.balanced, h.items.trans hgiven.symm, ?_⟩
    exact fun n m hm hnone => ht.gaveUp (h.thrown n m hm hnone)
  · rw [hop, Option.bind_some] at hgiven
    refine ⟨b.step op, ?_, balanced_step h.balanced op, ?_, ?_⟩
    · rw [Book.step, h.router, (hs.step hd).2.eq_step]
    · rw [Book.step, h.items, hgiven]
    · intro n m hm hnone
      rcases thrown_away h.balanced hm hnone with ⟨hm, hnone⟩ | ⟨a, outcome, hcloses, hid⟩
      · exact ht.gaveUp (h.thrown n m hm hnone)
      · exact ht.closes hwaits hop hcloses hid

/-- A world with balanced books. -/
structure BookedWorld (calls : ι → Call) (w : World ι) : Prop where
  sound : Sound w.dispatcher
  waits : TimedWaits calls w
  booked : ∃ b, Booked calls w b

theorem bookedWorld_turn (h : BookedWorld calls w) (ht : Turn calls w l w') :
    BookedWorld calls w' := by
  obtain ⟨b, hb⟩ := h.booked
  exact ⟨ht.sound h.sound, timedWaits_turn h.waits ht, booked_turn h.sound h.waits hb ht⟩

omit [DecidableEq ι] in
theorem bookedWorld_init (calls : ι → Call) : BookedWorld calls {} where
  sound := sound_init
  waits := by
    intro i f h
    rcases h with h | h <;> cases h
  booked := ⟨Book.init, rfl, balanced_init, rfl, by
    intro n m hm
    cases hm⟩

/--
**Every message that was read is accounted for.**

In every history of a connection there is for each message that was dispatched one place
that has it, unaltered, and each place has one such message: a reaction that a future
delivers, a list in progress, or what was handed to the callbacks. The only messages without
a place are those with the ActionID of a timed call that is past its wait. The messages that
were dispatched are the first of those that are complete in the bytes, and all of them when
both workers are joined.
-/
theorem received_accounted (calls : ι → Call) (sockFd : Int)
    {labels : List (Connection.Label ι)} {c : Connection ι}
    (hrun : Connection.runLabels calls sockFd labels = .ok c) :
    (∃ place, Accounts c.dispatched (messageAt c.dispatcher) place
        ∧ ∀ n m, c.dispatched[n]? = some m → place n = none → GaveUp calls c.pc m)
      ∧ c.dispatched <+: c.events
      ∧ (c.pipeline.Closed → c.dispatched = parseAll (framedMessages c.reader.chunks)) := by
  obtain ⟨w, hstands, hbooked⟩ := run_stands (carries_true calls fun _ => none)
    (fun _ _ _ h _ hstep => bookedWorld_turn h (step_turn hstep)) (bookedWorld_init calls)
    (Run.along_of_forall (fun _ _ => trivial) _ _) hrun
  have hw := hstands.stands
  refine ⟨?_, ?_, ?_⟩
  · obtain ⟨b, hb⟩ := hbooked.booked
    have hitems : b.items = c.dispatched := hb.items.trans hw.delivered
    have hheld : held b.router = messageAt c.dispatcher := by
      rw [hb.router, ← hw.dispatcher]
      exact funext (held_abs hbooked.sound.wf)
    refine ⟨b.place, ?_, ?_⟩
    · rw [← hitems, ← hheld]
      exact hb.balanced.accounts
    · rw [← hitems, ← hw.pc]
      exact hb.thrown
  · rw [← hw.delivered, ← hw.traffic, World.traffic, List.map_append]
    exact List.prefix_append _ _
  · intro hclosed
    exact (run_dispatched hrun hclosed).2

/-- The answer of a call without a timeout has its place, also when the connection is closed. -/
theorem received_accounted_closing :
    ∃ c m p place, Connection.runLabels (fun _ => { action := Sample.ping "7" }) 3 Sample.closing
        = .ok c
      ∧ Accounts [m] (messageAt c.dispatcher) place ∧ place 0 = some p
      ∧ messageAt c.dispatcher p = some m := by
  have hrun : ∃ c m, Connection.runLabels (fun _ => { action := Sample.ping "7" }) 3
      Sample.closing = .ok c ∧ c.dispatched = [m] := ⟨_, _, rfl, rfl⟩
  obtain ⟨c, m, hrun, hone⟩ := hrun
  obtain ⟨⟨place, hbooks, hthrown⟩, _⟩ := received_accounted _ 3 hrun
  rw [hone] at hbooks hthrown
  cases hplace : place 0 with
  | none =>
      obtain ⟨i, _, htimed, _⟩ := hthrown 0 m rfl hplace
      exact absurd htimed (by simp)
  | some p => exact ⟨c, m, p, place, hrun, hbooks, hplace, hbooks.kept 0 m p rfl hplace⟩

end CppAmi.Proof
