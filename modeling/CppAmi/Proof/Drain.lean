import CppAmi.Model.SocketReader

/-!
# What the reader takes from the kernel

`read` compares the flags that `poll` reports with `POLLIN`. With another flag beside it,
for which `poll` is not even asked, nothing is read, and the loop polls again. So the
queue is drained if and only if `POLLIN` always comes alone (`drains_iff`).
-/

namespace CppAmi.Proof

open CppAmi SocketReader

/-! ## One call -/

theorem read_pollin {fd : Int} (hfd : fd ≠ -1) (queue : Bytes) (n : Nat) :
    TcpSocket.read fd queue (.ready POLLIN) (.received n)
      = .ok (queue.take n, queue.drop n) := by
  unfold TcpSocket.read
  rw [if_neg hfd]
  dsimp only
  rw [if_neg (by simp)]

/-- What is returned was in front of the queue, and nothing is without `POLLIN` alone. -/
theorem read_eq_ok {fd : Int} {queue buf rest : Bytes} {polled : PollResult}
    {received : RecvResult} (h : TcpSocket.read fd queue polled received = .ok (buf, rest)) :
    buf ++ rest = queue
      ∧ (buf ≠ [] → fd ≠ -1 ∧ polled = .ready POLLIN ∧ ∃ n, received = .received n) := by
  unfold TcpSocket.read at h
  split at h
  · cases h
    exact ⟨rfl, fun hne => absurd rfl hne⟩
  · rename_i hfd
    cases polled with
    | failed what => cases h
    | timeout =>
        cases h
        exact ⟨rfl, fun hne => absurd rfl hne⟩
    | ready revents =>
        dsimp only at h
        split at h
        · cases h
          exact ⟨rfl, fun hne => absurd rfl hne⟩
        · rename_i hflags
          cases received with
          | failed what => cases h
          | received n =>
              cases h
              refine ⟨List.take_append_drop n queue, fun _ => ⟨hfd, ?_, n, rfl⟩⟩
              rw [not_not.mp hflags]

/-- A text was read where something could be read. -/
theorem isReadable_of_read {fd : Int} {queue buf rest : Bytes} {polled : PollResult}
    {received : RecvResult} (h : TcpSocket.read fd queue polled received = .ok (buf, rest))
    (hne : buf ≠ []) : isReadable fd queue polled received = true := by
  obtain ⟨hcat, hread⟩ := read_eq_ok h
  obtain ⟨hfd, rfl, n, rfl⟩ := hread hne
  have hqueue : queue ≠ [] := by
    intro hnil
    rw [hnil] at hcat
    exact hne (List.append_eq_nil_iff.mp hcat).1
  have hflag : reportsPollin (.ready POLLIN) = true := by decide
  simp [isReadable, hflag, hfd, hqueue]

/-- **With `POLLIN` alone, something is read where it can be.** -/
theorem read_drains {fd : Int} {queue : Bytes} {received : RecvResult}
    (hlegal : received.Legal bufSize queue)
    (hreadable : isReadable fd queue (.ready POLLIN) received = true) :
    ∃ buf rest, TcpSocket.read fd queue (.ready POLLIN) received = .ok (buf, rest)
      ∧ buf ≠ [] ∧ buf ++ rest = queue := by
  cases received with
  | failed what => cases hreadable
  | received n =>
      simp only [isReadable, Bool.and_eq_true, decide_eq_true_eq, Bool.not_eq_true',
        List.isEmpty_eq_false_iff] at hreadable
      obtain ⟨⟨hfd, _⟩, hqueue⟩ := hreadable
      refine ⟨queue.take n, queue.drop n, read_pollin hfd queue n, ?_,
        List.take_append_drop n queue⟩
      have hn := hlegal.2.2 hqueue
      intro hnil
      rcases List.take_eq_nil_iff.mp hnil with hzero | hempty
      · omega
      · exact hqueue hempty

/-! ## The loop -/

theorem step_read {r r' : SocketReader} {polled : PollResult} {arrived : Bytes}
    {received : RecvResult} (h : step r (.read polled arrived received) = .ok r') :
    received.Legal bufSize (r.queue ++ arrived)
      ∧ ∃ buf rest, TcpSocket.read r.sockFd (r.queue ++ arrived) polled received = .ok (buf, rest)
        ∧ r'.chunks.flatten = r.chunks.flatten ++ buf ∧ r'.queue = rest
        ∧ r'.offered = r.offered ++ arrived
        ∧ r'.chunks.length = r.chunks.length + (if buf = [] then 0 else 1)
        ∧ r'.readable = r.readable
          + if isReadable r.sockFd (r.queue ++ arrived) polled received then 1 else 0 := by
  obtain ⟨⟨_, hlegal⟩, h⟩ := Run.ite_eq_ok h
  refine ⟨hlegal, ?_⟩
  split at h
  · rename_i buf rest hread
    refine ⟨buf, rest, hread, ?_⟩
    cases h
    unfold handOn
    by_cases hbuf : buf = []
    · rw [if_pos hbuf, if_pos hbuf, hbuf, List.append_nil]
      exact ⟨rfl, rfl, rfl, rfl, rfl⟩
    · rw [if_neg hbuf, if_neg hbuf]
      refine ⟨?_, rfl, rfl, ?_, rfl⟩
      · show (r.chunks ++ [buf]).flatten = _
        simp
      · show (r.chunks ++ [buf]).length = _
        simp
  · cases h

/-- Whatever the kernel answers, the bytes that came in are handed on or still in the queue. -/
theorem offered_step {r r' : SocketReader} {l : SocketReader.Label}
    (h : r.chunks.flatten ++ r.queue = r.offered) (hs : step r l = .ok r') :
    r'.chunks.flatten ++ r'.queue = r'.offered := by
  cases l with
  | arrive bytes =>
      cases hs
      show r.chunks.flatten ++ (r.queue ++ bytes) = r.offered ++ bytes
      rw [← List.append_assoc, h]
  | stop =>
      cases hs
      exact h
  | read polled arrived received =>
      obtain ⟨_, buf, rest, hread, hflat, hqueue, hoffered, _⟩ := step_read hs
      rw [hflat, hqueue, hoffered, List.append_assoc, (read_eq_ok hread).1, ← List.append_assoc, h]

/-- **Nothing is lost, handed on twice or out of order**, however often `read` returns nothing. -/
theorem chunks_in_order (fd : Int) (ls : List SocketReader.Label) :
    Run.Always step (fun r => r.chunks.flatten ++ r.queue = r.offered) { sockFd := fd } ls := by
  refine Run.always_of_along (fun r l r' h _ hs => offered_step h hs) (fun r h => h) rfl
    (Run.along_of_forall (fun _ _ => trivial) _ ls)

theorem handedOn_step {r r' : SocketReader} {l : SocketReader.Label} (h : HandedOn r)
    (halone : PollinAlone r l) (hs : step r l = .ok r') : HandedOn r' := by
  refine ⟨offered_step h.1 hs, ?_⟩
  cases l with
  | arrive bytes =>
      cases hs
      exact h.2
  | stop =>
      cases hs
      exact h.2
  | read polled arrived received =>
      obtain ⟨hlegal, buf, rest, hread, _, _, _, hlen, hcount⟩ := step_read hs
      rw [hlen, hcount, h.2]
      congr 1
      by_cases hbuf : buf = []
      · -- nothing was read, so nothing could be
        rw [if_pos hbuf, if_neg]
        intro hreadable
        obtain rfl := halone hreadable
        obtain ⟨buf', rest', hread', hne, _⟩ := read_drains hlegal hreadable
        rw [hread] at hread'
        cases hread'
        exact hne hbuf
      · rw [if_neg hbuf, if_pos (isReadable_of_read hread hbuf)]

theorem pollinAlone_of_drains {r : SocketReader} {l : SocketReader.Label} (h : Drains r l) :
    PollinAlone r l := by
  cases l with
  | arrive bytes => trivial
  | stop => trivial
  | read polled arrived received =>
      intro hreadable
      obtain ⟨buf, rest, hread, hne, _⟩ := h hreadable
      exact ((read_eq_ok hread).2 hne).2.1

theorem drains_of_pollinAlone {r r' : SocketReader} {l : SocketReader.Label}
    (hs : step r l = .ok r') (h : PollinAlone r l) : Drains r l := by
  cases l with
  | arrive bytes => trivial
  | stop => trivial
  | read polled arrived received =>
      intro hreadable
      obtain rfl := h hreadable
      exact read_drains (step_read hs).1 hreadable

/-- A read that could have read something and did not shows in the counts. -/
theorem pollinAlone_of_handedOn {r r' : SocketReader} {l : SocketReader.Label} (h : HandedOn r)
    (hs : step r l = .ok r') (h' : HandedOn r') : PollinAlone r l := by
  cases l with
  | arrive bytes => trivial
  | stop => trivial
  | read polled arrived received =>
      intro hreadable
      obtain ⟨_, buf, rest, hread, _, _, _, hlen, hcount⟩ := step_read hs
      have hcounts := h'.2
      rw [hlen, hcount, h.2, if_pos hreadable] at hcounts
      have hbuf : buf ≠ [] := by
        intro hnil
        rw [if_pos hnil] at hcounts
        omega
      exact ((read_eq_ok hread).2 hbuf).2.1

/--
**The reader drains the kernel's queue exactly when `POLLIN` always comes alone.**

Then every call of `read` that could read something does, and only then the callback gets
what was in the queue with no turn of the loop in between that leaves it there.
-/
theorem drains_iff (fd : Int) (ls : List SocketReader.Label) :
    (Run.Along step Drains { sockFd := fd } ls ↔ Run.Along step PollinAlone { sockFd := fd } ls)
      ∧ (Run.Always step HandedOn { sockFd := fd } ls
        ↔ Run.Along step PollinAlone { sockFd := fd } ls) := by
  refine ⟨⟨?_, ?_⟩, ?_, ?_⟩
  · intro h
    exact h.mono fun r l r' _ hdrains => pollinAlone_of_drains hdrains
  · intro h
    exact h.mono fun r l r' hs halone => drains_of_pollinAlone hs halone
  · intro h
    refine Run.along_of_always ?_ h
    intro r l r' hr hs hr'
    exact pollinAlone_of_handedOn hr hs hr'
  · intro h
    exact Run.always_of_along (fun r l r' hinv halone hs => handedOn_step hinv halone hs)
      (fun r hinv => hinv) ⟨rfl, rfl⟩ h

/-- The answer to a `Logoff`. -/
def goodbye : Bytes := ascii "Response: Goodbye\r\n\r\n"

/-- The server has torn the connection down: a read that finds that and the answer. -/
def hungUp : SocketReader.Label :=
  .read (.ready (POLLIN ||| POLLERR ||| POLLHUP)) [] (.received 21)

theorem hungUp_step (n : Nat) :
    step { sockFd := 3, queue := goodbye, offered := goodbye, readable := n } hungUp
      = .ok { sockFd := 3, queue := goodbye, offered := goodbye, readable := n + 1 } := rfl

/-- The last answer stays in the queue, however often the loop turns. -/
theorem goodbye_stranded :
    ¬ Run.Along step Drains { sockFd := 3 } [.arrive goodbye, hungUp]
      ∧ ∀ n, Run.run step { sockFd := 3 } (.arrive goodbye :: List.replicate n hungUp)
        = .ok { sockFd := 3, queue := goodbye, offered := goodbye, readable := n } := by
  constructor
  · intro h
    obtain ⟨buf, rest, hread, hne, _⟩ := ((h _ rfl).2 _ (hungUp_step 0)).1 rfl
    cases hread
    exact hne rfl
  · intro n
    have hturns : ∀ n m, Run.run step
        { sockFd := 3, queue := goodbye, offered := goodbye, readable := m }
        (List.replicate n hungUp)
          = .ok { sockFd := 3, queue := goodbye, offered := goodbye, readable := m + n } := by
      intro n
      induction n with
      | zero =>
          intro m
          rfl
      | succ n ih =>
          intro m
          rw [List.replicate_succ, Run.run_cons (hungUp_step m), ih, Nat.add_right_comm]
          rfl
    have hrun := hturns n 0
    rw [Nat.zero_add] at hrun
    exact hrun

end CppAmi.Proof
