import CppAmi.Model.TcpSocket
import Mathlib.Data.List.Nodup

/-!
# What reaches the wire

The mutex keeps the writes apart, so the stream is what `send` accepted of each call's
text, one after the other. `write` offers a text once and does not look at how much of
it was accepted: the texts reach the wire whole if and only if the kernel never takes
less than it is offered (`wire_whole_iff`).
-/

namespace CppAmi.Proof

open CppAmi TcpSocket

variable {ι : Type} [DecidableEq ι] {data : ι → Bytes}

/-- Everything one turn can do. -/
inductive Written (data : ι → Bytes) (s : TcpSocket ι) :
    TcpSocket.Label ι → TcpSocket ι → Prop where
  | empty {i : ι} (hpc : s.pc i = .start) (hdata : data i = []) :
      Written data s (.lock i) { s with pc := Function.update s.pc i .returned }
  | locked {i : ι} (hpc : s.pc i = .start) :
      Written data s (.lock i)
        { s with pc := Function.update s.pc i .locked, writeMutex := some i }
  | closed {i : ι} (hpc : s.pc i = .locked) (hfd : s.sockFd = -1) :
      Written data s (.closed i) (s.leave i .returned)
  | sent {i : ι} {writeSize : Nat} (hpc : s.pc i = .locked) (hle : writeSize ≤ (data i).length) :
      Written data s (.send i writeSize)
        { s.leave i .returned with
          stream := s.stream ++ (data i).take writeSize,
          sends := s.sends ++ [(i, writeSize)] }
  | failed {i : ι} {what : Bytes} (hpc : s.pc i = .locked) :
      Written data s (.sendFails i what)
        (s.leave i (.threw (ascii "Error writing socket: " ++ what)))

theorem step_written {s s' : TcpSocket ι} {l : TcpSocket.Label ι} (h : step data s l = .ok s') :
    Written data s l s' := by
  cases l with
  | lock i =>
      simp only [step] at h
      split at h
      · rename_i hpc
        split at h
        · rename_i hdata
          cases h
          exact .empty hpc hdata
        · obtain ⟨_, hs⟩ := Run.ite_eq_ok h
          cases hs
          exact .locked hpc
      · cases h
  | closed i =>
      simp only [step] at h
      split at h
      · rename_i hpc
        obtain ⟨hfd, hs⟩ := Run.ite_eq_ok h
        cases hs
        exact .closed hpc hfd
      · cases h
  | send i writeSize =>
      simp only [step] at h
      split at h
      · rename_i hpc
        obtain ⟨hsize, hs⟩ := Run.ite_eq_ok h
        cases hs
        exact .sent hpc hsize.2.2
      · cases h
  | sendFails i what =>
      simp only [step] at h
      split at h
      · rename_i hpc
        obtain ⟨_, hs⟩ := Run.ite_eq_ok h
        cases hs
        exact .failed hpc
      · cases h

/-- What the socket has taken, call by call. -/
structure Accounted (data : ι → Bytes) (s : TcpSocket ι) : Prop where
  stream : s.stream = s.sends.flatMap fun sent => (data sent.1).take sent.2
  /-- No call has sent twice. -/
  once : (s.sends.map Prod.fst).Nodup
  /-- The calls that have sent are those that returned. -/
  returned : ∀ i, i ∈ s.sends.map Prod.fst ↔ s.pc i = .returned
  /-- No more is accepted than was offered. -/
  bound : ∀ sent ∈ s.sends, sent.2 ≤ (data sent.1).length

omit [DecidableEq ι] in
theorem accounted_init (fd : Int) : Accounted data { sockFd := fd } where
  stream := rfl
  once := List.nodup_nil
  returned := by
    intro i
    simp
  bound := by
    intro sent hsent
    cases hsent

/-- A call that moves on without having sent changes nothing in the account. -/
theorem Accounted.moved {s : TcpSocket ι} (h : Accounted data s) {i : ι} {pc : WritePc}
    (hbefore : s.pc i ≠ .returned) (hafter : pc ≠ .returned) (j : ι) :
    j ∈ s.sends.map Prod.fst ↔ Function.update s.pc i pc j = .returned := by
  by_cases hji : j = i
  · subst hji
    rw [Function.update_self, h.returned j]
    exact ⟨fun hr => absurd hr hbefore, fun hr => absurd hr hafter⟩
  · rw [Function.update_of_ne hji]
    exact h.returned j

/-- **Every turn keeps the account**, on a socket that is connected. -/
theorem accounted_step {s s' : TcpSocket ι} {l : TcpSocket.Label ι} (hdata : ∀ i, data i ≠ [])
    (hfd : s.sockFd ≠ -1) (h : Accounted data s) (hstep : step data s l = .ok s') :
    Accounted data s' ∧ s'.sockFd ≠ -1 := by
  cases step_written hstep with
  | @empty i hpc hempty => exact absurd hempty (hdata i)
  | @locked i hpc =>
      refine ⟨⟨h.stream, h.once, h.moved ?_ (by simp), h.bound⟩, hfd⟩
      rw [hpc]
      simp
  | closed hpc hclosed => exact absurd hclosed hfd
  | @sent i writeSize hpc hle =>
      -- a call that holds the mutex has not sent yet
      have hnew : i ∉ s.sends.map Prod.fst := by
        rw [h.returned i, hpc]
        simp
      refine ⟨⟨?_, ?_, ?_, ?_⟩, hfd⟩
      · rw [List.flatMap_append, ← h.stream]
        simp
      · simp only [List.map_append, List.map_cons, List.map_nil]
        refine List.nodup_append.mpr ⟨h.once, by simp, ?_⟩
        intro a ha b hb heq
        rw [List.mem_singleton.mp hb] at heq
        exact hnew (heq ▸ ha)
      · intro j
        simp only [leave, List.map_append, List.map_cons, List.map_nil, List.mem_append,
          List.mem_singleton]
        by_cases hji : j = i
        · subst hji
          simp
        · rw [Function.update_of_ne hji, ← h.returned j]
          simp [hji]
      · intro sent hsent
        rcases List.mem_append.mp hsent with hsent | hsent
        · exact h.bound sent hsent
        · rw [List.mem_singleton.mp hsent]
          exact hle
  | @failed i what hpc =>
      refine ⟨⟨h.stream, h.once, h.moved ?_ (by simp), h.bound⟩, hfd⟩
      rw [hpc]
      simp

/-! ## Whole texts -/

/-- What was sent of each call is its whole text. -/
def AllWhole (data : ι → Bytes) (s : TcpSocket ι) : Prop :=
  ∀ sent ∈ s.sends, sent.2 = (data sent.1).length

omit [DecidableEq ι] in
/-- No more can be sent than there is. -/
theorem sent_length_le (sends : List (ι × Nat)) :
    (sends.flatMap fun sent => (data sent.1).take sent.2).length
      ≤ ((sends.map Prod.fst).flatMap data).length := by
  induction sends with
  | nil => exact Nat.le_refl 0
  | cons sent sends ih =>
      simp only [List.flatMap_cons, List.map_cons, List.length_append, List.length_take]
      omega

omit [DecidableEq ι] in
/-- Where no byte is missing, every text is whole. -/
theorem whole_of_length {sends : List (ι × Nat)}
    (hbound : ∀ sent ∈ sends, sent.2 ≤ (data sent.1).length)
    (hlen : ((sends.map Prod.fst).flatMap data).length
      ≤ (sends.flatMap fun sent => (data sent.1).take sent.2).length) :
    ∀ sent ∈ sends, sent.2 = (data sent.1).length := by
  induction sends with
  | nil =>
      intro sent hsent
      cases hsent
  | cons first sends ih =>
      have hrest := @sent_length_le _ data sends
      have hfirst := hbound first List.mem_cons_self
      simp only [List.flatMap_cons, List.map_cons, List.length_append, List.length_take] at hlen
      have hih := ih (fun sent hsent => hbound sent (List.mem_cons_of_mem first hsent)) (by omega)
      intro sent hsent
      rcases List.mem_cons.mp hsent with rfl | hsent
      · omega
      · exact hih sent hsent

omit [DecidableEq ι] in
theorem flatMap_whole {sends : List (ι × Nat)}
    (h : ∀ sent ∈ sends, sent.2 = (data sent.1).length) :
    (sends.flatMap fun sent => (data sent.1).take sent.2)
      = (sends.map Prod.fst).flatMap data := by
  rw [List.flatMap_map]
  refine List.flatMap_congr ?_
  intro sent hsent
  rw [h sent hsent, List.take_length]

omit [DecidableEq ι] in
/-- The stream is made of whole texts exactly when each of them was sent whole. -/
theorem whole_iff {s : TcpSocket ι} (h : Accounted data s) : s.Whole data ↔ AllWhole data s := by
  constructor
  · intro hwhole
    obtain ⟨order, hnodup, hmem, hstream⟩ := hwhole
    refine whole_of_length h.bound ?_
    rw [← h.stream, hstream]
    -- any order of the calls that returned has the same bytes in all
    have hperm : order.Perm (s.sends.map Prod.fst) :=
      (List.perm_ext_iff_of_nodup hnodup h.once).mpr fun i => (hmem i).trans (h.returned i).symm
    exact Nat.le_of_eq (hperm.flatMap_right data).length_eq.symm
  · intro hall
    refine ⟨s.sends.map Prod.fst, h.once, h.returned, ?_⟩
    rw [h.stream, flatMap_whole hall]

/-- A text that was not sent whole stays on record. -/
theorem allWhole_of_step {s s' : TcpSocket ι} {l : TcpSocket.Label ι}
    (hstep : step data s l = .ok s') (h : AllWhole data s') :
    AllWhole data s ∧ s.AcceptsAll data l := by
  cases step_written hstep with
  | @sent i writeSize hpc hle =>
      refine ⟨fun sent hsent => h sent (List.mem_append_left _ hsent), ?_⟩
      exact h (i, writeSize) (List.mem_append_right _ (List.mem_singleton_self _))
  | _ => exact ⟨h, trivial⟩

theorem allWhole_step {s s' : TcpSocket ι} {l : TcpSocket.Label ι} (hstep : step data s l = .ok s')
    (h : AllWhole data s) (hall : s.AcceptsAll data l) : AllWhole data s' := by
  cases step_written hstep with
  | sent hpc hle =>
      intro sent hsent
      rcases List.mem_append.mp hsent with hsent | hsent
      · exact h sent hsent
      · rw [List.mem_singleton.mp hsent]
        exact hall
  | _ => exact h

theorem toString_ne_nil (a : Action) : a.toString ≠ [] := by
  unfold Action.toString
  simp [ascii]

theorem data_ne_nil (r : Request) : r.data ≠ [] := by
  cases r with
  | invoke action timeout => exact toString_ne_nil action
  | asyncInvoke action => exact toString_ne_nil action

/--
**The requests reach the wire whole exactly when the kernel accepts all it is offered.**

Any number of calls write their actions in any order on a connected socket. The stream
is made of the whole texts of the actions whose writes have returned, each once, if and
only if every `send` so far accepted as many bytes as the text has.
-/
theorem wire_whole_iff (requests : ι → Request) (fd : Int) (hfd : fd ≠ -1)
    (labels : List (TcpSocket.Label ι)) (s : TcpSocket ι)
    (hrun : Run.run (step fun i => (requests i).data) { sockFd := fd } labels = .ok s) :
    s.Whole (fun i => (requests i).data)
      ↔ Run.Along (step fun i => (requests i).data) (AcceptsAll fun i => (requests i).data)
        { sockFd := fd } labels := by
  have hdata : ∀ i, (requests i).data ≠ [] := fun i => data_ne_nil (requests i)
  have haccount : Accounted (fun i => (requests i).data) s ∧ s.sockFd ≠ -1 :=
    Run.invariant_of_step (fun s l s' h hstep => accounted_step hdata h.2 h.1 hstep)
      ⟨accounted_init fd, hfd⟩ hrun
  rw [whole_iff haccount.1]
  constructor
  · intro h
    have hall : Run.Always (step fun i => (requests i).data)
        (fun s => True ∧ AllWhole (fun i => (requests i).data) s) { sockFd := fd } labels :=
      Run.always_of_final (fun _ _ _ _ _ => trivial)
        (fun s l s' _ hstep h' => (allWhole_of_step hstep h').1) trivial hrun h
    exact Run.along_of_always (fun s l s' _ hstep h' => (allWhole_of_step hstep h'.2).2) hall
  · intro h
    refine Run.invariant (fun s l s' hs hall hstep => allWhole_step hstep hs hall) ?_ h hrun
    intro sent hsent
    cases hsent

/-! ## Two requests on one socket -/

/-- Two pings; one is sent by a caller that does not wait. -/
def twoPings : Bool → Request
  | true => .invoke { KeyValDict.ofKeys [] with action := ascii "Ping", actionId := ascii "7" } none
  | false =>
    .asyncInvoke { KeyValDict.ofKeys [] with action := ascii "Ping", actionId := ascii "8" }

/-- The rule where all that is offered is accepted. -/
theorem wire_whole_pings :
    ∃ s, Run.run (step fun i => (twoPings i).data) { sockFd := 3 }
        [.lock true, .send true 29, .lock false, .send false 29] = .ok s
      ∧ (s.Whole (fun i => (twoPings i).data)
        ↔ Run.Along (step fun i => (twoPings i).data) (AcceptsAll fun i => (twoPings i).data)
          { sockFd := 3 } [.lock true, .send true 29, .lock false, .send false 29]) :=
  ⟨_, rfl, wire_whole_iff twoPings 3 (by decide) _ _ rfl⟩

/-- The kernel accepts one byte of the first ping: both calls return, and the server sees one
malformed request. -/
theorem short_send_cuts :
    ∃ s, Run.run (step fun i => (twoPings i).data) { sockFd := 3 }
        [.lock true, .send true 1, .lock false, .send false 29] = .ok s
      ∧ (∀ i, s.pc i = .returned)
      ∧ s.stream = ascii "AAction: Ping\r\nActionID: 8\r\n\r\n"
      ∧ ¬ s.Whole (fun i => (twoPings i).data) := by
  refine ⟨_, rfl, fun i => by cases i <;> rfl, rfl, ?_⟩
  intro h
  obtain ⟨order, hnodup, hmem, hstream⟩ := h
  have hperm : order.Perm [true, false] := by
    refine (List.perm_ext_iff_of_nodup hnodup (by decide)).mpr fun i => (hmem i).trans ?_
    cases i
    · exact ⟨fun _ => by simp, fun _ => rfl⟩
    · exact ⟨fun _ => by simp, fun _ => rfl⟩
  -- two whole texts have more bytes than there are
  have hlen := (hperm.flatMap_right fun i => (twoPings i).data).length_eq
  rw [← hstream] at hlen
  exact absurd hlen (by decide)

end CppAmi.Proof
