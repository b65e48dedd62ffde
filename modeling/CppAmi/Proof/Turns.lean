import CppAmi.Proof.Assembly
import CppAmi.Spec.Session

/-!
# What one turn does

`Turn` lists everything a turn can do to a connection; the invariants of the following
files go by cases on it. A turn is at most one operation of the dispatcher (`opOf`), so
the dispatcher of a reachable connection is a reachable dispatcher, and no turn fails.
-/

namespace CppAmi.Proof

open CppAmi EventDispatcher

variable {ι : Type} [DecidableEq ι]

/-- Everything one turn can do. -/
inductive Turn (calls : ι → Call) (w : World ι) : Label ι → World ι → Prop where
  | getEventPipe {i : ι} {d : EventDispatcher} (hpc : w.pc i = .start)
      (hd : w.dispatcher.apply (.getEventPipe (calls i).actionId) = .ok d) :
      Turn calls w (.getEventPipe i)
        { w.goto i (.registered (w.dispatcher.getEventPipe (calls i).actionId).2) with
          dispatcher := d, mark := Function.update w.mark i w.delivered.length }
  | write {i : ι} {f : Nat} (hpc : w.pc i = .registered f) :
      Turn calls w (.write i)
        { w.goto i (if (calls i).timeout.isSome then .waiting f else .getting f) with
          wire := w.wire ++ [(i, (calls i).action.toString)] }
  | writeThrows {i : ι} {f : Nat} {what : Bytes} (hpc : w.pc i = .registered f) :
      Turn calls w (.writeThrows i what)
        (w.goto i (.writeThrew (.runtimeError (ascii "Error writing socket: " ++ what))))
  | waitReady {i : ι} {f : Nat} (hpc : w.pc i = .waiting f)
      (hready : w.dispatcher.shared[f]? ≠ some .pending) :
      Turn calls w (.waitReady i) (w.goto i (.getting f))
  | waitTimeout {i : ι} {f : Nat} (hpc : w.pc i = .waiting f)
      (hpend : w.dispatcher.shared[f]? = some .pending) :
      Turn calls w (.waitTimeout i)
        { w.goto i (.timedOut f) with elapsed := Function.update w.elapsed i true }
  | setExceptionOnPipe {i : ι} {f : Nat} {d : EventDispatcher} (hpc : w.pc i = .timedOut f)
      (hd : w.dispatcher.apply (.setExceptionOnPipe (calls i).actionId
        (timeoutError (calls i).actionId)) = .ok d) :
      Turn calls w (.setExceptionOnPipe i) { w.goto i (.getting f) with dispatcher := d }
  | returned {i : ι} {f : Nat} {reaction : Option Reaction} (hpc : w.pc i = .getting f)
      (hvalue : w.dispatcher.shared[f]? = some (.value reaction)) :
      Turn calls w (.get i) (w.goto i (.returned reaction))
  | threw {i : ι} {f : Nat} {err : Exn} (hpc : w.pc i = .getting f)
      (herr : w.dispatcher.shared[f]? = some (.exception err)) :
      Turn calls w (.get i) (w.goto i (.threw err))
  | emit {source : Option ι} {m : Event} :
      Turn calls w (.emit source m) { w with inFlight := w.inFlight ++ [(source, m)] }
  | dispatch {source : Option ι} {m : Event} {rest : List (Option ι × Event)}
      {d : EventDispatcher} (hhead : w.inFlight = (source, m) :: rest)
      (hd : w.dispatcher.apply (.dispatchEvent m) = .ok d) :
      Turn calls w .dispatch
        { w with dispatcher := d, inFlight := rest,
                 delivered := w.delivered ++ [(source, m)] }

theorem step_turn {calls : ι → Call} {w w' : World ι} {l : Label ι}
    (h : World.step calls w l = .ok w') : Turn calls w l w' := by
  cases l with
  | getEventPipe i =>
      rw [World.step] at h
      split at h
      · cases h
        exact .getEventPipe ‹_› rfl
      · cases h
  | write i =>
      rw [World.step] at h
      split at h
      · cases h
        exact .write ‹_›
      · cases h
  | writeThrows i what =>
      rw [World.step] at h
      split at h
      · cases h
        exact .writeThrows ‹_›
      · cases h
  | waitReady i =>
      rw [World.step] at h
      split at h
      · split at h
        · cases h
        · cases h
          exact .waitReady ‹_› ‹_›
      · cases h
  | waitTimeout i =>
      rw [World.step] at h
      split at h
      · split at h
        · cases h
          exact .waitTimeout ‹_› ‹_›
        · cases h
      · cases h
  | setExceptionOnPipe i =>
      rw [World.step] at h
      split at h
      · cases hd : w.dispatcher.setExceptionOnPipe (calls i).actionId
            (timeoutError (calls i).actionId) with
        | error e =>
            rw [hd] at h
            cases h
        | ok d =>
            rw [hd] at h
            cases h
            exact .setExceptionOnPipe ‹_› hd
      · cases h
  | get i =>
      rw [World.step] at h
      split at h
      · split at h
        · cases h
          exact .returned ‹_› ‹_›
        · cases h
          exact .threw ‹_› ‹_›
        · cases h
      · cases h
  | emit source m =>
      cases h
      exact .emit
  | dispatch =>
      rw [World.step] at h
      split at h
      · cases h
      · rename_i source m rest hhead
        cases hd : w.dispatcher.dispatchDict m with
        | error e =>
            rw [hd] at h
            cases h
        | ok d =>
            rw [hd] at h
            cases h
            exact .dispatch hhead hd

/-! ## The dispatcher -/

/-- The operation of the dispatcher that a turn performs. -/
def opOf (calls : ι → Call) (w : World ι) : Label ι → Option Op
  | .getEventPipe i => some (.getEventPipe (calls i).actionId)
  | .setExceptionOnPipe i =>
    some (.setExceptionOnPipe (calls i).actionId (timeoutError (calls i).actionId))
  | .dispatch => w.inFlight.head?.map fun sm => .dispatchEvent sm.2
  | _ => none

omit [DecidableEq ι] in
theorem opOf_getEventPipe {calls : ι → Call} {w : World ι} {l : Label ι} {a : Bytes}
    (h : opOf calls w l = some (.getEventPipe a)) :
    ∃ i, l = .getEventPipe i ∧ (calls i).actionId = a := by
  cases l with
  | getEventPipe i =>
      cases h
      exact ⟨i, rfl, rfl⟩
  | dispatch =>
      obtain ⟨sm, _, hop⟩ := Option.map_eq_some_iff.mp h
      cases hop
  | _ => cases h

omit [DecidableEq ι] in
theorem opOf_dispatch {calls : ι → Call} {w : World ι} {l : Label ι} {m : Event}
    (h : opOf calls w l = some (.dispatchEvent m)) : ∃ source, (source, m) ∈ w.inFlight := by
  cases l with
  | dispatch =>
      obtain ⟨sm, hhead, hop⟩ := Option.map_eq_some_iff.mp h
      cases hop
      exact ⟨sm.1, List.mem_of_mem_head? hhead⟩
  | _ => cases h

section Dispatcher

variable {calls : ι → Call} {w w' : World ι} {l : Label ι}

theorem Turn.dispatcher (h : Turn calls w l w') :
    (opOf calls w l = none ∧ w'.dispatcher = w.dispatcher)
      ∨ ∃ op, opOf calls w l = some op ∧ w.dispatcher.apply op = .ok w'.dispatcher := by
  cases h with
  | getEventPipe hpc hd => exact Or.inr ⟨_, rfl, hd⟩
  | setExceptionOnPipe hpc hd => exact Or.inr ⟨_, rfl, hd⟩
  | dispatch hhead hd => exact Or.inr ⟨_, by rw [opOf, hhead]; rfl, hd⟩
  | _ => exact Or.inl ⟨rfl, rfl⟩

theorem Turn.sound (h : Turn calls w l w') (hs : Sound w.dispatcher) : Sound w'.dispatcher := by
  rcases h.dispatcher with ⟨_, hd⟩ | ⟨op, _, hd⟩
  · rw [hd]
    exact hs
  · exact (hs.step hd).1

/-- A turn moves a pipe by the operation it performs, if that names the pipe's ActionID. -/
theorem Turn.tracks (h : Turn calls w l w') (hs : Sound w.dispatcher) {a : Bytes} {f : Nat}
    {p : Progress} (ht : Tracks (abs w.dispatcher) a f p) :
    Tracks (abs w'.dispatcher) a f
      (((opOf calls w l).bind (Op.onPipe a)).elim p p.step) := by
  rcases h.dispatcher with ⟨hop, hd⟩ | ⟨op, hop, hd⟩
  · rw [hop, hd]
    exact ht
  · rw [hop]
    exact tracks_move hs.inv (hs.step hd).2 ht

/-- **No turn fails:** in particular no promise is satisfied twice. -/
theorem step_no_fault (hs : Sound w.dispatcher) (l : Label ι) (e : Fault) :
    World.step calls w l ≠ .error (.fault e) := by
  intro h
  cases l with
  | getEventPipe i => rw [World.step] at h; split at h <;> cases h
  | write i => rw [World.step] at h; split at h <;> cases h
  | writeThrows i what => rw [World.step] at h; split at h <;> cases h
  | waitReady i =>
      rw [World.step] at h
      split at h
      · split at h <;> cases h
      · cases h
  | waitTimeout i =>
      rw [World.step] at h
      split at h
      · split at h <;> cases h
      · cases h
  | setExceptionOnPipe i =>
      rw [World.step] at h
      split at h
      · obtain ⟨d, hd, _⟩ := hs.apply (.setExceptionOnPipe (calls i).actionId
          (timeoutError (calls i).actionId))
        rw [EventDispatcher.apply] at hd
        rw [hd] at h
        cases h
      · cases h
  | get i =>
      rw [World.step] at h
      split at h
      · split at h <;> cases h
      · cases h
  | emit source m => cases h
  | dispatch =>
      rw [World.step] at h
      split at h
      · cases h
      · rename_i source m rest hhead
        obtain ⟨d, hd, _⟩ := hs.apply (.dispatchEvent m)
        rw [EventDispatcher.apply] at hd
        rw [hd] at h
        cases h

end Dispatcher

/-! ## The calls -/

/-- How a call advances in its own turn. -/
inductive Advance (w : World ι) (i : ι) : Label ι → Pc → Pc → Prop where
  | getEventPipe {f : Nat} : Advance w i (.getEventPipe i) .start (.registered f)
  | write {f : Nat} {pc' : Pc} (hnext : pc' = .waiting f ∨ pc' = .getting f) :
      Advance w i (.write i) (.registered f) pc'
  | writeThrows {f : Nat} {what : Bytes} {err : Exn} :
      Advance w i (.writeThrows i what) (.registered f) (.writeThrew err)
  | waitReady {f : Nat} (hready : w.dispatcher.shared[f]? ≠ some .pending) :
      Advance w i (.waitReady i) (.waiting f) (.getting f)
  | waitTimeout {f : Nat} : Advance w i (.waitTimeout i) (.waiting f) (.timedOut f)
  | setExceptionOnPipe {f : Nat} : Advance w i (.setExceptionOnPipe i) (.timedOut f) (.getting f)
  | returned {f : Nat} {reaction : Option Reaction}
      (hvalue : w.dispatcher.shared[f]? = some (.value reaction)) :
      Advance w i (.get i) (.getting f) (.returned reaction)
  | threw {f : Nat} {err : Exn} (herr : w.dispatcher.shared[f]? = some (.exception err)) :
      Advance w i (.get i) (.getting f) (.threw err)

section Calls

variable {calls : ι → Call} {w w' : World ι} {l : Label ι} {i : ι}

theorem Turn.advance (h : Turn calls w l w') (hi : l.caller = some i) :
    Advance w i l (w.pc i) (w'.pc i) := by
  cases h with
  | getEventPipe hpc hd =>
      cases hi
      simp only [hpc, World.goto, Function.update_self]
      exact .getEventPipe
  | write hpc =>
      cases hi
      simp only [hpc, World.goto, Function.update_self]
      refine .write ?_
      split
      · exact Or.inl rfl
      · exact Or.inr rfl
  | writeThrows hpc =>
      cases hi
      simp only [hpc, World.goto, Function.update_self]
      exact .writeThrows
  | waitReady hpc hready =>
      cases hi
      simp only [hpc, World.goto, Function.update_self]
      exact .waitReady hready
  | waitTimeout hpc hpend =>
      cases hi
      simp only [hpc, World.goto, Function.update_self]
      exact .waitTimeout
  | setExceptionOnPipe hpc hd =>
      cases hi
      simp only [hpc, World.goto, Function.update_self]
      exact .setExceptionOnPipe
  | returned hpc hvalue =>
      cases hi
      simp only [hpc, World.goto, Function.update_self]
      exact .returned hvalue
  | threw hpc herr =>
      cases hi
      simp only [hpc, World.goto, Function.update_self]
      exact .threw herr
  | emit => cases hi
  | dispatch hhead hd => cases hi

/-- A turn of one call leaves the others where they are. -/
theorem Turn.other (h : Turn calls w l w') {i : ι} (hi : l.caller ≠ some i) :
    w'.pc i = w.pc i ∧ w'.mark i = w.mark i ∧ w'.elapsed i = w.elapsed i := by
  have hne : ∀ {j : ι}, l.caller = some j → i ≠ j := by
    intro j hj heq
    subst heq
    exact hi hj
  cases h with
  | getEventPipe hpc hd =>
      exact ⟨Function.update_of_ne (hne rfl) _ _, Function.update_of_ne (hne rfl) _ _, rfl⟩
  | write hpc => exact ⟨Function.update_of_ne (hne rfl) _ _, rfl, rfl⟩
  | writeThrows hpc => exact ⟨Function.update_of_ne (hne rfl) _ _, rfl, rfl⟩
  | waitReady hpc hready => exact ⟨Function.update_of_ne (hne rfl) _ _, rfl, rfl⟩
  | waitTimeout hpc hpend =>
      exact ⟨Function.update_of_ne (hne rfl) _ _, rfl, Function.update_of_ne (hne rfl) _ _⟩
  | setExceptionOnPipe hpc hd => exact ⟨Function.update_of_ne (hne rfl) _ _, rfl, rfl⟩
  | returned hpc hvalue => exact ⟨Function.update_of_ne (hne rfl) _ _, rfl, rfl⟩
  | threw hpc herr => exact ⟨Function.update_of_ne (hne rfl) _ _, rfl, rfl⟩
  | emit => exact ⟨rfl, rfl, rfl⟩
  | dispatch hhead hd => exact ⟨rfl, rfl, rfl⟩

/-- A call registers first. -/
theorem Turn.start_of_getEventPipe (h : Turn calls w (.getEventPipe i) w') : w.pc i = .start := by
  cases h with
  | getEventPipe hpc hd => exact hpc

/-- Only a registration sets the mark of its call. -/
theorem Turn.mark (h : Turn calls w l w') (hl : l ≠ .getEventPipe i) : w'.mark i = w.mark i := by
  cases h with
  | @getEventPipe j d hpc hd => exact Function.update_of_ne (fun hij => hl (by rw [hij])) _ _
  | _ => rfl

end Calls

/-! ## The messages -/

/-- The server's messages go through one queue: a turn sends one, takes the first, or leaves
them. -/
theorem Turn.flow {calls : ι → Call} {w w' : World ι} {l : Label ι} (h : Turn calls w l w') :
    (l ≠ .dispatch ∧ w'.inFlight = w.inFlight ∧ w'.delivered = w.delivered)
      ∨ (∃ source m, l = .emit source m ∧ w'.inFlight = w.inFlight ++ [(source, m)]
        ∧ w'.delivered = w.delivered)
      ∨ ∃ sm, l = .dispatch ∧ w.inFlight = sm :: w'.inFlight
        ∧ w'.delivered = w.delivered ++ [sm] := by
  cases h with
  | @emit source m => exact Or.inr (Or.inl ⟨source, m, rfl, rfl, rfl⟩)
  | @dispatch source m rest d hhead hd => exact Or.inr (Or.inr ⟨(source, m), rfl, hhead, rfl⟩)
  | _ => exact Or.inl ⟨by simp, rfl, rfl⟩

end CppAmi.Proof
