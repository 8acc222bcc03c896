import TlpiExercises.Transition

/-!
# The descriptors of the remote execution server

The server accepts a connection and forks a child for it; the child inherits every connection that
is open in the server, and the server closes its own copy. When `fork` fails the loop goes on
without closing it. The child runs a shell, which may start further processes and leave them
behind; each of them inherits what is open in the one that starts it. A client sees the end of its
connection when no process has it open.
-/
namespace TlpiExercises.RemoteServer

/-- The descriptors of the server besides its connections: the three standard ones and `sfd`. -/
abbrev otherFds : ℕ := 4

/-- A process that was started for the connection `connFd`: the child that `handleConn` runs in, or
one that such a process has started; `fds` are the connections that it has open. -/
structure Process (ι : Type*) where
  connFd : ι
  fds : List ι
  alive : Bool

/-- What the server does next: `accept`, `fork` for a connection, or `close` of it. -/
inductive PC (ι : Type*) where
  | accept
  | fork (connFd : ι)
  | close (connFd : ι)
  deriving DecidableEq

/-- The server with its open connections and the processes started so far; `accepted` and `failed`
are the connections so far and those for which `fork` has failed. -/
structure State (ι : Type*) where
  pc : PC ι
  fds : List ι
  processes : List (Process ι)
  accepted : List ι
  failed : List ι

def State.initial (ι : Type*) : State ι := ⟨.accept, [], [], [], []⟩

/-- `accept` of a new connection, both results of `fork`, and `close`; or the process at position
`k` starts another one, closes a connection, or ends. -/
inductive Label (ι : Type*) where
  | accept (connFd : ι)
  | fork
  | forkFails
  | close
  | spawn (k : ℕ)
  | closeFd (k : ℕ) (fd : ι)
  | exit (k : ℕ)

variable {ι : Type*} [DecidableEq ι]

/-- With `limit` descriptors for a process. An `accept` that fails is only reported. -/
def step (limit : ℕ) (label : Label ι) (s : State ι) : Option (State ι) :=
  match label, s.pc with
  | .accept c, .accept =>
      if c ∉ s.accepted ∧ otherFds + s.fds.length < limit then
        some { s with pc := .fork c, fds := s.fds ++ [c], accepted := s.accepted ++ [c] }
      else none
  | .fork, .fork c =>
      some { s with pc := .close c, processes := s.processes ++ [⟨c, s.fds, true⟩] }
  | .forkFails, .fork c => some { s with pc := .accept, failed := s.failed ++ [c] }
  | .close, .close c => some { s with pc := .accept, fds := s.fds.erase c }
  | .spawn k, _ =>
      match s.processes[k]? with
      | some p => if p.alive then some { s with processes := s.processes ++ [p] } else none
      | none => none
  | .closeFd k fd, _ =>
      some { s with processes := s.processes.modify k fun p => { p with fds := p.fds.erase fd } }
  | .exit k, _ =>
      some { s with processes := s.processes.modify k fun p => { p with alive := false } }
  | _, _ => none

def system (ι : Type*) [DecidableEq ι] (limit : ℕ) : System (State ι) :=
  .ofNext (· = .initial ι) (step limit)

/-- The client of `c` has seen the end of its connection. -/
def State.Eof (s : State ι) (c : ι) : Prop :=
  c ∉ s.fds ∧ ∀ p ∈ s.processes, p.alive → c ∉ p.fds

/-- The connection that the server is busy with. -/
def PC.current : PC ι → List ι
  | .accept => []
  | .fork c | .close c => [c]

/-- The connections for which a child was forked. -/
def State.served (s : State ι) : List ι := s.processes.map Process.connFd

section Runs

variable {limit : ℕ} {s t : State ι} {c : ι}

structure Inv (s : State ι) : Prop where
  fds : s.fds = s.failed ++ s.pc.current
  accepted : ∀ c, c ∈ s.accepted ↔ c ∈ s.failed ∨ c ∈ s.served ∨ s.pc = .fork c
  apart : ∀ c ∈ s.served, c ∉ s.failed
  closing : ∀ c, s.pc = .close c → c ∈ s.served
  forking : ∀ c, s.pc = .fork c → c ∉ s.served ∧ c ∉ s.failed
  inherited : ∀ p ∈ s.processes, ∀ c ∈ p.fds, c = p.connFd ∨ c ∈ s.failed

theorem Inv.accept (h : Inv s) (hstep : step limit (.accept c) s = some t) : Inv t := by
  unfold RemoteServer.step at hstep
  cases hpc : s.pc <;> simp only [hpc, reduceCtorEq] at hstep
  obtain ⟨⟨hnew, -⟩, hstep⟩ := Option.ite_none_right_eq_some.mp hstep
  obtain rfl := Option.some.inj hstep
  have hout := mt (h.accepted c).mpr hnew
  rw [not_or, not_or] at hout
  refine ⟨?_, fun k => ?_, h.apart, fun k hk => (nomatch hk), fun k hk => ?_, h.inherited⟩
  · have hfds := h.fds
    simp only [hpc, PC.current, List.append_nil] at hfds
    simp only [hfds, PC.current]
  · have hk := h.accepted k
    simp only [hpc, reduceCtorEq, or_false] at hk
    rw [List.mem_append, hk, List.mem_singleton, or_assoc]
    simp only [State.served, PC.fork.injEq, eq_comm]
  · obtain rfl : c = k := by simpa using hk
    exact ⟨hout.2.1, hout.1⟩

theorem Inv.fork (h : Inv s) (hstep : step limit .fork s = some t) : Inv t := by
  unfold RemoteServer.step at hstep
  cases hpc : s.pc <;> simp only [hpc, reduceCtorEq, Option.some.injEq] at hstep
  next c =>
  subst hstep
  obtain ⟨hserved, hfailed⟩ := h.forking c hpc
  have hfds := h.fds
  simp only [hpc, PC.current] at hfds
  have hmap : (s.processes ++ [(⟨c, s.fds, true⟩ : Process ι)]).map Process.connFd =
      s.served ++ [c] := by
    simp [State.served]
  refine ⟨hfds, fun k => ?_, fun k hk => ?_, fun k hk => ?_, fun k hk => (nomatch hk),
    fun p hp k hk => ?_⟩
  · have hk := h.accepted k
    simp only [hpc, PC.fork.injEq] at hk
    show k ∈ s.accepted ↔ k ∈ s.failed ∨
      k ∈ (s.processes ++ [(⟨c, s.fds, true⟩ : Process ι)]).map Process.connFd ∨
        PC.close c = .fork k
    rw [hk, hmap, List.mem_append, List.mem_singleton]
    simp only [reduceCtorEq, or_false, eq_comm]
  · have hk' : k ∈ (s.processes ++ [(⟨c, s.fds, true⟩ : Process ι)]).map Process.connFd := hk
    rw [hmap, List.mem_append, List.mem_singleton] at hk'
    rcases hk' with hk | rfl
    · exact h.apart k hk
    · exact hfailed
  · obtain rfl : c = k := by simpa using hk
    show c ∈ (s.processes ++ [(⟨c, s.fds, true⟩ : Process ι)]).map Process.connFd
    rw [hmap]
    exact List.mem_append_right _ List.mem_cons_self
  · rcases List.mem_append.mp hp with hp | hp
    · exact h.inherited p hp k hk
    · obtain rfl := List.mem_singleton.mp hp
      rw [hfds] at hk
      rcases List.mem_append.mp hk with hk | hk
      · exact .inr hk
      · exact .inl (List.mem_singleton.mp hk)

theorem Inv.forkFails (h : Inv s) (hstep : step limit .forkFails s = some t) : Inv t := by
  unfold RemoteServer.step at hstep
  cases hpc : s.pc <;> simp only [hpc, reduceCtorEq, Option.some.injEq] at hstep
  next c =>
  subst hstep
  obtain ⟨hserved, -⟩ := h.forking c hpc
  have hfds := h.fds
  simp only [hpc, PC.current] at hfds
  refine ⟨by simpa [PC.current] using hfds, fun k => ?_, fun k hk hmem => ?_,
    fun k hk => (nomatch hk), fun k hk => (nomatch hk), fun p hp k hk => ?_⟩
  · have hk := h.accepted k
    simp only [hpc, PC.fork.injEq] at hk
    show k ∈ s.accepted ↔ k ∈ s.failed ++ [c] ∨ k ∈ s.served ∨ PC.accept = .fork k
    rw [hk, List.mem_append, List.mem_singleton]
    simp only [reduceCtorEq, or_false, eq_comm]
    tauto
  · rcases List.mem_append.mp hmem with hmem | hmem
    · exact h.apart k hk hmem
    · obtain rfl := List.mem_singleton.mp hmem
      exact hserved hk
  · exact (h.inherited p hp k hk).imp_right (List.mem_append_left _)

theorem Inv.close (h : Inv s) (hstep : step limit .close s = some t) : Inv t := by
  unfold RemoteServer.step at hstep
  cases hpc : s.pc <;> simp only [hpc, reduceCtorEq, Option.some.injEq] at hstep
  next c =>
  subst hstep
  have hserved := h.closing c hpc
  have hfds := h.fds
  simp only [hpc, PC.current] at hfds
  refine ⟨?_, fun k => ?_, h.apart, fun k hk => (nomatch hk), fun k hk => (nomatch hk),
    h.inherited⟩
  · show s.fds.erase c = s.failed ++ []
    rw [hfds, List.erase_append_right _ (h.apart c hserved), List.erase_cons_head]
  · have hk := h.accepted k
    simp only [hpc, reduceCtorEq, or_false] at hk
    show k ∈ s.accepted ↔ k ∈ s.failed ∨ k ∈ s.served ∨ PC.accept = .fork k
    simpa using hk

omit [DecidableEq ι] in
/-- Processes for the same connections, with no other descriptors than before. -/
theorem Inv.processes (h : Inv s) {ps : List (Process ι)}
    (hserved : ∀ c, c ∈ ps.map Process.connFd ↔ c ∈ s.served)
    (hfds : ∀ p ∈ ps, ∃ q ∈ s.processes, p.connFd = q.connFd ∧ p.fds ⊆ q.fds) :
    Inv { s with processes := ps } := by
  refine ⟨h.fds, fun c => ?_, fun c hc => h.apart c ((hserved c).mp hc),
    fun c hc => (hserved c).mpr (h.closing c hc), fun c hc => ?_, fun p hp c hc => ?_⟩
  · rw [h.accepted c, ← hserved c]
    rfl
  · obtain ⟨hnot, hfailed⟩ := h.forking c hc
    exact ⟨mt (hserved c).mp hnot, hfailed⟩
  · obtain ⟨q, hq, hconn, hsub⟩ := hfds p hp
    rw [hconn]
    exact h.inherited q hq c (hsub hc)

omit [DecidableEq ι] in
theorem map_connFd_modify {f : Process ι → Process ι} (hf : ∀ p, (f p).connFd = p.connFd) (k : ℕ)
    (ps : List (Process ι)) : (ps.modify k f).map Process.connFd = ps.map Process.connFd := by
  induction ps generalizing k with
  | nil => simp
  | cons p ps ih =>
      cases k with
      | zero => simp [hf]
      | succ k => simp [ih]

omit [DecidableEq ι] in
theorem of_mem_modify {f : Process ι → Process ι} {k : ℕ} {ps : List (Process ι)} {p : Process ι}
    (h : p ∈ ps.modify k f) : ∃ q ∈ ps, p = q ∨ p = f q := by
  obtain ⟨i, hi⟩ := List.mem_iff_getElem?.mp h
  rw [List.getElem?_modify] at hi
  obtain ⟨q, hq, rfl⟩ := Option.map_eq_some_iff.mp hi
  refine ⟨q, List.mem_of_getElem? hq, ?_⟩
  by_cases hk : k = i
  · exact .inr (if_pos hk)
  · exact .inl (if_neg hk)

omit [DecidableEq ι] in
theorem Inv.modify (h : Inv s) {f : Process ι → Process ι} (hconn : ∀ p, (f p).connFd = p.connFd)
    (hfds : ∀ p, (f p).fds ⊆ p.fds) (k : ℕ) :
    Inv { s with processes := s.processes.modify k f } := by
  refine h.processes (fun c => by rw [map_connFd_modify hconn, State.served]) fun p hp => ?_
  obtain ⟨q, hq, rfl | rfl⟩ := of_mem_modify hp
  · exact ⟨p, hq, rfl, List.Subset.refl _⟩
  · exact ⟨q, hq, hconn q, hfds q⟩

theorem Inv.spawn (h : Inv s) {k : ℕ} (hstep : step limit (.spawn k) s = some t) : Inv t := by
  obtain ⟨p, hp, rfl⟩ : ∃ p ∈ s.processes, { s with processes := s.processes ++ [p] } = t := by
    cases hk : s.processes[k]? with
    | none => simp [step, hk] at hstep
    | some p =>
        refine ⟨p, List.mem_of_getElem? hk, ?_⟩
        simp only [step, hk] at hstep
        exact Option.some.inj (Option.ite_none_right_eq_some.mp hstep).2
  refine h.processes (fun c => ?_) fun q hq => ?_
  · rw [List.map_append, List.mem_append, List.map_singleton, List.mem_singleton]
    refine or_iff_left_of_imp ?_
    rintro rfl
    exact List.mem_map_of_mem hp
  · rcases List.mem_append.mp hq with hq | hq
    · exact ⟨q, hq, rfl, List.Subset.refl _⟩
    · obtain rfl := List.mem_singleton.mp hq
      exact ⟨q, hp, rfl, List.Subset.refl _⟩

theorem inv_of_reachable (h : (system ι limit).Reachable s) : Inv s := by
  have hstart : Inv (State.initial ι) :=
    ⟨rfl, by simp [State.initial, State.served], fun _ hc => absurd hc List.not_mem_nil,
      fun _ hc => (nomatch hc), fun _ hc => (nomatch hc), fun _ hc => absurd hc List.not_mem_nil⟩
  refine System.invariant_of_next Inv hstart (fun label s t hs hstep => ?_) h
  cases label with
  | accept c => exact hs.accept hstep
  | fork => exact hs.fork hstep
  | forkFails => exact hs.forkFails hstep
  | close => exact hs.close hstep
  | spawn k => exact hs.spawn hstep
  | closeFd k fd =>
      obtain rfl := Option.some.inj hstep
      refine hs.modify (fun p => ?_) (fun p => ?_) k
      · rfl
      · exact List.erase_subset
  | exit k =>
      obtain rfl := Option.some.inj hstep
      refine hs.modify (fun p => ?_) (fun p => ?_) k
      · rfl
      · exact List.Subset.refl p.fds

end Runs

/-- Whenever the server is back at `accept`, its open connections are those for which `fork` has
failed. A client sees the end of its connection exactly if there was a child for it, and this and
every process that was started from it has ended or closed the connection. With as many failed
forks as there are descriptors left no connection is accepted again. -/
theorem eof_iff {limit : ℕ} {s : State ι} (h : (system ι limit).Reachable s) (hpc : s.pc = .accept) :
    s.fds = s.failed ∧
      (∀ c ∈ s.accepted, s.Eof c ↔
        c ∈ s.served ∧ ∀ p ∈ s.processes, p.connFd = c → p.alive → c ∉ p.fds) ∧
      (limit ≤ otherFds + s.failed.length → ∀ c, step limit (.accept c) s = none) := by
  have hinv := inv_of_reachable h
  have hfds : s.fds = s.failed := by
    have hfds := hinv.fds
    rwa [hpc, PC.current, List.append_nil] at hfds
  refine ⟨hfds, fun c hc => ⟨?_, ?_⟩, fun hlimit c => ?_⟩
  · rintro ⟨hopen, hprocesses⟩
    rw [hfds] at hopen
    have hserved : c ∈ s.served := by
      have hcases := (hinv.accepted c).mp hc
      simpa [hpc, hopen] using hcases
    exact ⟨hserved, fun p hp _ => hprocesses p hp⟩
  · rintro ⟨hserved, hclosed⟩
    have hfailed := hinv.apart c hserved
    refine ⟨by rwa [hfds], fun p hp halive hin => ?_⟩
    rcases hinv.inherited p hp c hin with heq | hin'
    · exact hclosed p hp heq.symm halive hin
    · exact hfailed hin'
  · have hfull : ¬ (c ∉ s.accepted ∧ otherFds + s.fds.length < limit) := by
      rw [hfds]
      omega
    simp only [step, hpc, if_neg hfull]

/-- `fork` fails for the first connection. The child for the second one leaves a process behind when
it ends, and that for the third one does not. -/
theorem eof_iff_leaked :
    ∃ s : State ℕ, (system ℕ 1024).Reachable s ∧ s.pc = .accept ∧ s.fds = [1] ∧
      ¬ s.Eof 1 ∧ ¬ s.Eof 2 ∧ s.Eof 3 := by
  have hreach := System.reachable_of_schedule
    (System.Reachable.start (M := system ℕ 1024) rfl)
    [.accept 1, .forkFails, .accept 2, .fork, .close, .spawn 0, .exit 0, .accept 3, .fork, .close,
      .exit 2] rfl
  obtain ⟨-, heof, -⟩ := eof_iff hreach rfl
  refine ⟨_, hreach, rfl, rfl, ?_, ?_, ?_⟩
  · rw [heof 1 (by decide)]
    decide
  · rw [heof 2 (by decide)]
    decide
  · rw [heof 3 (by decide)]
    decide

end TlpiExercises.RemoteServer
