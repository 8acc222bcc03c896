import TlpiExercises.Transition

/-!
# Clients that send their input to one server

Any number of clients copy their standard input to a stream socket. The server accepts one
connection after the other and copies what arrives on it to its standard output until the client
closes its end. Reads may return fewer bytes than the buffer holds; a write that is short ends the
program that made it. The steps of the clients and of the server interleave in any order, and a
run ends when the server does.
-/
namespace TlpiExercises.SocketNamespace

/-- `BUF_SIZE`. -/
abbrev bufSize : ℕ := 100

/-- What a client does next: `connect`, `read`, or `write` of what it has read. It ends with
`EXIT_SUCCESS` or with an error. -/
inductive ClientPC where
  | connect
  | read
  | write (buf : List UInt8)
  | done
  | stopped
  deriving DecidableEq, Repr

/-- What a client has read and not yet written. -/
def ClientPC.buf : ClientPC → List UInt8
  | .write buf => buf
  | _ => []

/-- A client and its connection: what is left of its standard input, the bytes on their way to the
server, whether its end is closed, and what the server has written for it. -/
structure Link where
  pc : ClientPC
  stdin : List UInt8
  sent : List UInt8
  closed : Bool
  written : List UInt8

/-- What the server does next. -/
inductive Server (ι : Type*) where
  | accept
  | read (i : ι)
  | write (i : ι) (buf : List UInt8)
  | close (i : ι)
  | stopped
  deriving DecidableEq

/-- The connection that the server is copying from. -/
def Server.current {ι : Type*} : Server ι → Option ι
  | .read i | .write i _ | .close i => some i
  | _ => none

structure State (ι : Type*) where
  link : ι → Link
  backlog : List ι
  accepted : List ι
  server : Server ι
  stdout : List UInt8

def State.initial {ι : Type*} (input : ι → List UInt8) : State ι where
  link i := ⟨.connect, input i, [], false, []⟩
  backlog := []
  accepted := []
  server := .accept
  stdout := []

/-- Who moves, and how many bytes the call transfers. A `fail` is a call that returns an error. -/
inductive Label (ι : Type*) where
  | connect (i : ι)
  | clientRead (i : ι) (k : ℕ)
  | clientWrite (i : ι) (k : ℕ)
  | clientFail (i : ι)
  | accept
  | serverRead (k : ℕ)
  | serverWrite (k : ℕ)
  | serverClose
  | serverFail

/-- `read` of up to `BUF_SIZE` bytes; zero bytes mean that there are no more. -/
def clientRead (k : ℕ) (l : Link) : Option Link :=
  match l.pc with
  | .read =>
      if k = 0 then
        if l.stdin = [] then some { l with pc := .done, closed := true } else none
      else if k ≤ bufSize ∧ k ≤ l.stdin.length then
        some { l with pc := .write (l.stdin.take k), stdin := l.stdin.drop k }
      else none
  | _ => none

/-- `write` of `k` of the bytes; the client ends with `fatal` unless these are all. -/
def clientWrite (k : ℕ) (l : Link) : Option Link :=
  match l.pc with
  | .write buf =>
      if k = buf.length then some { l with pc := .read, sent := l.sent ++ buf }
      else if k < buf.length then
        some { l with
          pc := .stopped, closed := true, sent := l.sent ++ buf.take k, stdin := buf.drop k ++ l.stdin }
      else none
  | _ => none

/-- `errExit` after a `connect` or a `read`; the end of the process closes the socket. -/
def clientFail (l : Link) : Option Link :=
  match l.pc with
  | .connect | .read => some { l with pc := .stopped, closed := true }
  | _ => none

variable {ι : Type*} [DecidableEq ι]

def State.set (s : State ι) (i : ι) (l : Link) : State ι :=
  { s with link := Function.update s.link i l }

def connect (i : ι) (s : State ι) : Option (State ι) :=
  match (s.link i).pc with
  | .connect => some ({ s with backlog := s.backlog ++ [i] }.set i { s.link i with pc := .read })
  | _ => none

def accept (s : State ι) : Option (State ι) :=
  match s.server, s.backlog with
  | .accept, i :: rest =>
      some { s with server := .read i, backlog := rest, accepted := s.accepted ++ [i] }
  | _, _ => none

/-- `read` returns zero bytes when the client has closed its end and all its bytes were read. -/
def serverRead (k : ℕ) (s : State ι) : Option (State ι) :=
  match s.server with
  | .read i =>
      let l := s.link i
      if k = 0 then
        if l.sent = [] ∧ l.closed then some { s with server := .close i } else none
      else if k ≤ bufSize ∧ k ≤ l.sent.length then
        some ({ s with server := .write i (l.sent.take k) }.set i { l with sent := l.sent.drop k })
      else none
  | _ => none

def serverWrite (k : ℕ) (s : State ι) : Option (State ι) :=
  match s.server with
  | .write i buf =>
      if k ≤ buf.length then
        some ({ s with
          server := if k = buf.length then .read i else .stopped
          stdout := s.stdout ++ buf.take k }.set i
            { s.link i with written := (s.link i).written ++ buf.take k })
      else none
  | _ => none

/-- A `close` that fails is only reported. -/
def serverClose (s : State ι) : Option (State ι) :=
  match s.server with
  | .close _ => some { s with server := .accept }
  | _ => none

/-- `errExit` after an `accept` or a `read`. -/
def serverFail (s : State ι) : Option (State ι) :=
  match s.server with
  | .accept | .read _ => some { s with server := .stopped }
  | _ => none

def step (label : Label ι) (s : State ι) : Option (State ι) :=
  if s.server = .stopped then none
  else match label with
    | .connect i => connect i s
    | .clientRead i k => (clientRead k (s.link i)).map (s.set i)
    | .clientWrite i k => (clientWrite k (s.link i)).map (s.set i)
    | .clientFail i => (clientFail (s.link i)).map (s.set i)
    | .accept => accept s
    | .serverRead k => serverRead k s
    | .serverWrite k => serverWrite k s
    | .serverClose => serverClose s
    | .serverFail => serverFail s

/-- All interleavings of the clients with these inputs and the server. -/
def system (input : ι → List UInt8) : System (State ι) := .ofNext (· = .initial input) step

section Links

/-- No byte of a client's input is lost or out of order: it was written, is held by the server, is
on its way, or was not sent yet. -/
structure Link.Ok (input held : List UInt8) (l : Link) : Prop where
  conserved : l.written ++ (held ++ (l.sent ++ (l.pc.buf ++ l.stdin))) = input
  closed : l.closed → l.pc = .done ∨ l.pc = .stopped
  done : l.pc = .done → l.stdin = []

variable {input held : List UInt8} {l l' : Link}

/-- What a step of a client does to its connection. -/
structure ClientMove (input held : List UInt8) (l l' : Link) : Prop where
  ok : l'.Ok input held
  written : l'.written = l.written
  wasOpen : l.closed = false
  pc_ne : l'.pc ≠ .connect

theorem Link.Ok.eq_false (h : l.Ok input held) (hdone : l.pc ≠ .done) (hstopped : l.pc ≠ .stopped) :
    l.closed = false := by
  by_contra hclosed
  rcases h.closed (by simpa using hclosed) with hpc | hpc
  · exact hdone hpc
  · exact hstopped hpc

theorem Link.Ok.clientRead (h : l.Ok input held) {k : ℕ} (hstep : clientRead k l = some l') :
    ClientMove input held l l' := by
  unfold SocketNamespace.clientRead at hstep
  cases hpc : l.pc <;> simp only [hpc, reduceCtorEq] at hstep
  have hopen := h.eq_false (by simp [hpc]) (by simp [hpc])
  have hconserved := h.conserved
  simp only [hpc, ClientPC.buf, List.nil_append] at hconserved
  split_ifs at hstep with hk hend hle <;> obtain rfl := Option.some.inj hstep
  · refine ⟨⟨?_, fun _ => .inl rfl, fun _ => hend⟩, rfl, hopen, by simp⟩
    simpa [ClientPC.buf] using hconserved
  · refine ⟨⟨?_, fun hclosed => ?_, fun hdone => nomatch hdone⟩, rfl, hopen, by simp⟩
    · simp only [ClientPC.buf, List.take_append_drop]
      exact hconserved
    · rw [hopen] at hclosed
      contradiction

theorem Link.Ok.clientWrite (h : l.Ok input held) {k : ℕ} (hstep : clientWrite k l = some l') :
    ClientMove input held l l' := by
  unfold SocketNamespace.clientWrite at hstep
  cases hpc : l.pc <;> simp only [hpc, reduceCtorEq] at hstep
  next buf =>
  have hopen := h.eq_false (by simp [hpc]) (by simp [hpc])
  have hconserved := h.conserved
  simp only [hpc, ClientPC.buf] at hconserved
  split_ifs at hstep with hk hlt <;> obtain rfl := Option.some.inj hstep
  · refine ⟨⟨?_, fun hclosed => ?_, fun hdone => nomatch hdone⟩, rfl, hopen, by simp⟩
    · simpa [ClientPC.buf] using hconserved
    · rw [hopen] at hclosed
      contradiction
  · refine ⟨⟨?_, fun _ => .inr rfl, fun hdone => nomatch hdone⟩, rfl, hopen, by simp⟩
    have hbuf : buf.take k ++ (buf.drop k ++ l.stdin) = buf ++ l.stdin := by
      rw [← List.append_assoc, List.take_append_drop]
    simpa [ClientPC.buf, hbuf] using hconserved

theorem Link.Ok.clientFail (h : l.Ok input held) (hstep : clientFail l = some l') :
    ClientMove input held l l' := by
  have hconserved := h.conserved
  unfold SocketNamespace.clientFail at hstep
  cases hpc : l.pc <;> simp only [hpc, reduceCtorEq, Option.some.injEq] at hstep
  all_goals
    subst hstep
    have hopen := h.eq_false (by simp [hpc]) (by simp [hpc])
    rw [hpc] at hconserved
    exact ⟨⟨hconserved, fun _ => .inr rfl, fun hdone => nomatch hdone⟩, rfl, hopen, by simp⟩

end Links

section Invariant

/-- What the server has read and not yet written. -/
def Server.held (i : ι) : Server ι → List UInt8
  | .write k buf => if k = i then buf else []
  | _ => []

/-- The output is made of what was written for each connection in the order of their acceptance;
all of them but the current one have come to their end. -/
structure Inv (input : ι → List UInt8) (s : State ι) : Prop where
  stdout : s.stdout = s.accepted.flatMap fun i => (s.link i).written
  link : ∀ i, (s.link i).Ok (input i) (s.server.held i)
  nodup : (s.accepted ++ s.backlog).Nodup
  waiting : ∀ i, (s.link i).pc = .connect → i ∉ s.accepted ++ s.backlog
  unaccepted : ∀ i, i ∉ s.accepted → (s.link i).written = []
  ended : ∀ i ∈ s.accepted, s.server.current ≠ some i →
    (s.link i).sent = [] ∧ (s.link i).closed
  closing : ∀ i, s.server = .close i → (s.link i).sent = [] ∧ (s.link i).closed
  current : ∀ i, s.server.current = some i → ∃ earlier, s.accepted = earlier ++ [i]

variable {input : ι → List UInt8} {s t : State ι} {i : ι}

@[simp] theorem State.set_link_self (s : State ι) (i : ι) (l : Link) : (s.set i l).link i = l :=
  Function.update_self ..

theorem State.set_link_of_ne (s : State ι) {i k : ι} (h : k ≠ i) (l : Link) :
    (s.set i l).link k = s.link k :=
  Function.update_of_ne h ..

theorem written_set {l : Link} (hl : l.written = (s.link i).written) (k : ι) :
    ((s.set i l).link k).written = (s.link k).written := by
  by_cases hk : k = i
  · rw [hk, State.set_link_self, hl]
  · rw [State.set_link_of_ne s hk]

/-- A step of a client. -/
theorem Inv.client (h : Inv input s) {l : Link}
    (hmove : ClientMove (input i) (s.server.held i) (s.link i) l) : Inv input (s.set i l) := by
  have hclosed : ¬ (s.link i).closed := by simp [hmove.wasOpen]
  refine ⟨?_, fun k => ?_, h.nodup, fun k hk => ?_, fun k hk => ?_, fun k hk hcur => ?_,
    fun k hk => ?_, h.current⟩
  · simp only [written_set hmove.written]
    exact h.stdout
  · by_cases hk : k = i
    · rw [hk, State.set_link_self]
      exact hmove.ok
    · rw [State.set_link_of_ne s hk]
      exact h.link k
  · by_cases hki : k = i
    · rw [hki, State.set_link_self] at hk
      exact absurd hk hmove.pc_ne
    · rw [State.set_link_of_ne s hki] at hk
      exact h.waiting k hk
  · rw [written_set hmove.written]
    exact h.unaccepted k hk
  · have hended := h.ended k hk hcur
    have hki : k ≠ i := by
      rintro rfl
      exact hclosed hended.2
    rw [State.set_link_of_ne s hki]
    exact hended
  · have hending := h.closing k hk
    have hki : k ≠ i := by
      rintro rfl
      exact hclosed hending.2
    rw [State.set_link_of_ne s hki]
    exact hending

theorem Inv.connect (h : Inv input s) (hstep : connect i s = some t) : Inv input t := by
  unfold SocketNamespace.connect at hstep
  cases hpc : (s.link i).pc <;> simp only [hpc, reduceCtorEq, Option.some.injEq] at hstep
  subst hstep
  have hnew := h.waiting i hpc
  have hlink := h.link i
  have hconserved := hlink.conserved
  rw [hpc] at hconserved
  have hopen := hlink.eq_false (by simp [hpc]) (by simp [hpc])
  -- the connection itself does not change: nothing was sent, and its end is open
  have hinv : Inv input (s.set i { s.link i with pc := .read }) := by
    refine h.client ⟨⟨hconserved, fun hclosed => ?_, fun hdone => nomatch hdone⟩, rfl, hopen, by simp⟩
    rw [hopen] at hclosed
    contradiction
  refine ⟨hinv.stdout, hinv.link, ?_, fun k hk => ?_, hinv.unaccepted, hinv.ended, hinv.closing,
    hinv.current⟩
  · show (s.accepted ++ (s.backlog ++ [i])).Nodup
    rw [← List.append_assoc, ← List.concat_eq_append]
    exact h.nodup.concat hnew
  · have hki : k ≠ i := by
      rintro rfl
      rw [State.set_link_self] at hk
      cases hk
    have hk' := hinv.waiting k hk
    show k ∉ s.accepted ++ (s.backlog ++ [i])
    rw [← List.append_assoc, List.mem_append, not_or, List.mem_singleton]
    exact ⟨hk', hki⟩

theorem Inv.accept (h : Inv input s) (hstep : accept s = some t) : Inv input t := by
  unfold SocketNamespace.accept at hstep
  split at hstep
  next i rest hserver hbacklog =>
    obtain rfl := Option.some.inj hstep
    have hnodup := h.nodup
    rw [hbacklog] at hnodup
    have happend : s.accepted ++ [i] ++ rest = s.accepted ++ i :: rest := by simp
    have hnew : i ∉ s.accepted := fun hi =>
      List.disjoint_of_nodup_append hnodup hi List.mem_cons_self
    refine ⟨?_, fun k => ?_, ?_, fun k hk => ?_, fun k hk => ?_, fun k hk hcur => ?_,
      fun k hk => (nomatch hk), fun k hk => ?_⟩
    · show s.stdout = (s.accepted ++ [i]).flatMap _
      rw [List.flatMap_append, ← h.stdout, List.flatMap_singleton, h.unaccepted i hnew,
        List.append_nil]
    · have hlink := h.link k
      rwa [hserver] at hlink
    · show (s.accepted ++ [i] ++ rest).Nodup
      rwa [happend]
    · show k ∉ s.accepted ++ [i] ++ rest
      rw [happend, ← hbacklog]
      exact h.waiting k hk
    · exact h.unaccepted k fun hk' => hk (List.mem_append_left _ hk')
    · rcases List.mem_append.mp hk with hk | hk
      · exact h.ended k hk (by simp [hserver, Server.current])
      · obtain rfl := List.mem_singleton.mp hk
        exact absurd rfl hcur
    · obtain rfl : i = k := Option.some.inj hk
      exact ⟨s.accepted, rfl⟩
  next => cases hstep

theorem held_of_ne {server : Server ι} (h : server.current = some i) {k : ι} (hk : k ≠ i) :
    server.held k = [] := by
  cases server with
  | write j buf =>
      obtain rfl : j = i := Option.some.inj h
      exact if_neg hk.symm
  | _ => rfl

/-- What is written for the current connection comes at the end of the output. -/
theorem Inv.stdout_append (h : Inv input s) (hcurrent : s.server.current = some i) {l : Link}
    {out : List UInt8} (hwritten : l.written = (s.link i).written ++ out) :
    s.stdout ++ out = s.accepted.flatMap fun k => (Function.update s.link i l k).written := by
  obtain ⟨earlier, hearlier⟩ := h.current i hcurrent
  have hnodup := h.nodup
  rw [hearlier] at hnodup
  have hnotin : i ∉ earlier := fun hi =>
    List.disjoint_of_nodup_append hnodup.of_append_left hi List.mem_cons_self
  have hsame : ∀ k ∈ earlier, (Function.update s.link i l k).written = (s.link k).written := by
    intro k hk
    have hki : k ≠ i := fun hki => hnotin (hki ▸ hk)
    rw [Function.update_of_ne hki]
  rw [h.stdout, hearlier, List.flatMap_append, List.flatMap_append, List.flatMap_singleton,
    List.flatMap_singleton, Function.update_self, hwritten, List.append_assoc,
    List.flatMap_congr hsame]

/-- A step of the server on the current connection that leaves it the current one. -/
theorem Inv.copy (h : Inv input s) (server : Server ι) (l : Link) (out : List UInt8)
    (hcurrent : s.server.current = some i) (hcurrent' : server.current = some i)
    (hlink : l.Ok (input i) (server.held i)) (hwritten : l.written = (s.link i).written ++ out)
    (hpc : l.pc = (s.link i).pc) (hclosing : server = .close i → l.sent = [] ∧ l.closed) :
    Inv input ({ s with server := server, stdout := s.stdout ++ out }.set i l) := by
  obtain ⟨earlier, hearlier⟩ := h.current i hcurrent
  have hheld : ∀ k, k ≠ i → server.held k = s.server.held k := fun k hk => by
    rw [held_of_ne hcurrent hk, held_of_ne hcurrent' hk]
  refine ⟨?_, fun k => ?_, h.nodup, fun k hk => ?_, fun k hk => ?_, fun k hk hcur => ?_,
    fun k hk => ?_, fun k hk => ?_⟩
  · exact h.stdout_append hcurrent hwritten
  · by_cases hk : k = i
    · rw [hk, State.set_link_self]
      exact hlink
    · rw [State.set_link_of_ne _ hk]
      show (s.link k).Ok (input k) (server.held k)
      rw [hheld k hk]
      exact h.link k
  · by_cases hki : k = i
    · rw [hki, State.set_link_self, hpc] at hk
      exact hki ▸ h.waiting i hk
    · rw [State.set_link_of_ne _ hki] at hk
      exact h.waiting k hk
  · have hki : k ≠ i := by
      rintro rfl
      exact hk (hearlier ▸ List.mem_append_right _ List.mem_cons_self)
    rw [State.set_link_of_ne _ hki]
    exact h.unaccepted k hk
  · have hki : k ≠ i := by
      rintro rfl
      exact hcur hcurrent'
    rw [State.set_link_of_ne _ hki]
    refine h.ended k hk fun heq => hki ?_
    rw [hcurrent] at heq
    exact (Option.some.inj heq).symm
  · obtain rfl : i = k := by
      have hk' : server = .close k := hk
      rw [hk'] at hcurrent'
      exact (Option.some.inj hcurrent').symm
    rw [State.set_link_self]
    exact hclosing hk
  · obtain rfl : i = k := Option.some.inj (hcurrent'.symm.trans hk)
    exact ⟨earlier, hearlier⟩

theorem Inv.serverRead (h : Inv input s) {k : ℕ} (hstep : serverRead k s = some t) :
    Inv input t := by
  unfold SocketNamespace.serverRead at hstep
  cases hserver : s.server <;> simp only [hserver, reduceCtorEq] at hstep
  next i =>
  have hlink := h.link i
  have hcurrent : s.server.current = some i := by rw [hserver]; rfl
  rw [hserver] at hlink
  obtain ⟨hconserved, hclosed, hdone⟩ := hlink
  simp only [Server.held, List.nil_append] at hconserved
  split_ifs at hstep with hk hend hle <;> obtain rfl := Option.some.inj hstep
  · have hinv := h.copy (.close i) (s.link i) [] hcurrent rfl ⟨hconserved, hclosed, hdone⟩
      (List.append_nil _).symm rfl fun _ => hend
    simpa [State.set] using hinv
  · have hinv := h.copy (.write i ((s.link i).sent.take k))
      { s.link i with sent := (s.link i).sent.drop k } [] hcurrent rfl ⟨?_, hclosed, hdone⟩
      (List.append_nil _).symm rfl fun hclose => (nomatch hclose)
    · simpa using hinv
    · rw [Server.held, if_pos rfl, ← List.append_assoc (List.take k _), List.take_append_drop]
      exact hconserved

/-- The bytes the server holds come right behind those it has written. -/
theorem Inv.held_conserved (h : Inv input s) {buf : List UInt8} (hserver : s.server = .write i buf) :
    (s.link i).written ++ (buf ++ ((s.link i).sent ++ ((s.link i).pc.buf ++ (s.link i).stdin))) =
      input i := by
  have hconserved := (h.link i).conserved
  rwa [hserver, Server.held, if_pos rfl] at hconserved

theorem Inv.serverWrite_all (h : Inv input s) {buf : List UInt8}
    (hserver : s.server = .write i buf) :
    Inv input ({ s with server := .read i, stdout := s.stdout ++ buf }.set i
      { s.link i with written := (s.link i).written ++ buf }) := by
  have hcurrent : s.server.current = some i := by rw [hserver]; rfl
  have hlink := h.link i
  refine h.copy (.read i) _ buf hcurrent rfl ⟨?_, hlink.closed, hlink.done⟩ rfl rfl
    fun hclose => (nomatch hclose)
  have hconserved := h.held_conserved hserver
  rw [← List.append_assoc] at hconserved
  exact hconserved

theorem Inv.serverClose (h : Inv input s) (hstep : serverClose s = some t) : Inv input t := by
  unfold SocketNamespace.serverClose at hstep
  cases hserver : s.server <;> simp only [hserver, reduceCtorEq, Option.some.injEq] at hstep
  next i =>
  subst hstep
  refine ⟨h.stdout, fun k => ?_, h.nodup, h.waiting, h.unaccepted, fun k hk _ => ?_,
    fun k hk => (nomatch hk), fun k hk => (nomatch hk)⟩
  · have hlink := h.link k
    rwa [hserver] at hlink
  · by_cases hki : k = i
    · exact hki ▸ h.closing i hserver
    · refine h.ended k hk fun hcur => hki ?_
      rw [hserver] at hcur
      exact (Option.some.inj hcur).symm

/-- What holds also when the server has stopped. -/
structure Output (input : ι → List UInt8) (s : State ι) : Prop where
  stdout : s.stdout = s.accepted.flatMap fun i => (s.link i).written
  nodup : s.accepted.Nodup
  written : ∀ i, (s.link i).written <+: input i

theorem Inv.output (h : Inv input s) : Output input s where
  stdout := h.stdout
  nodup := h.nodup.of_append_left
  written i := ⟨_, (h.link i).conserved⟩

theorem Inv.serverWrite (h : Inv input s) {k : ℕ} (hstep : serverWrite k s = some t) :
    Output input t ∧ (t.server ≠ .stopped → Inv input t) := by
  unfold SocketNamespace.serverWrite at hstep
  cases hserver : s.server <;> simp only [hserver, reduceCtorEq] at hstep
  next i buf =>
  obtain ⟨hle, hstep⟩ := Option.ite_none_right_eq_some.mp hstep
  obtain rfl := Option.some.inj hstep
  by_cases hk : k = buf.length
  · have hinv := h.serverWrite_all hserver
    rw [if_pos hk, hk, List.take_length]
    exact ⟨hinv.output, fun _ => hinv⟩
  · rw [if_neg hk]
    have hcurrent : s.server.current = some i := by rw [hserver]; rfl
    refine ⟨⟨h.stdout_append hcurrent rfl, h.output.nodup, fun j => ?_⟩,
      fun hstopped => absurd rfl hstopped⟩
    by_cases hj : j = i
    · subst hj
      rw [State.set_link_self, ← h.held_conserved hserver, ← List.append_assoc]
      exact ((List.prefix_append_right_inj _).mpr ( List.take_prefix k buf)).trans
        (List.prefix_append _ _)
    · rw [State.set_link_of_ne _ hj]
      exact h.output.written j

theorem Inv.step (h : Inv input s) {label : Label ι} (hstep : step label s = some t) :
    Output input t ∧ (t.server ≠ .stopped → Inv input t) := by
  have hkeeps : ∀ {u : State ι}, Inv input u → Output input u ∧ (u.server ≠ .stopped → Inv input u) :=
    fun hu => ⟨hu.output, fun _ => hu⟩
  unfold SocketNamespace.step at hstep
  obtain ⟨-, hstep⟩ := Option.ite_none_left_eq_some.mp hstep
  cases label with
  | connect i => exact hkeeps (h.connect hstep)
  | clientRead i k =>
      obtain ⟨l, hl, rfl⟩ := Option.map_eq_some_iff.mp hstep
      exact hkeeps (h.client ((h.link i).clientRead hl))
  | clientWrite i k =>
      obtain ⟨l, hl, rfl⟩ := Option.map_eq_some_iff.mp hstep
      exact hkeeps (h.client ((h.link i).clientWrite hl))
  | clientFail i =>
      obtain ⟨l, hl, rfl⟩ := Option.map_eq_some_iff.mp hstep
      exact hkeeps (h.client ((h.link i).clientFail hl))
  | accept => exact hkeeps (h.accept hstep)
  | serverRead k => exact hkeeps (h.serverRead hstep)
  | serverWrite k => exact h.serverWrite hstep
  | serverClose => exact hkeeps (h.serverClose hstep)
  | serverFail =>
      have hout := h.output
      simp only [serverFail] at hstep
      split at hstep
      next => cases hstep; exact ⟨⟨hout.stdout, hout.nodup, hout.written⟩, fun hs => absurd rfl hs⟩
      next => cases hstep; exact ⟨⟨hout.stdout, hout.nodup, hout.written⟩, fun hs => absurd rfl hs⟩
      next => cases hstep

theorem inv_initial (input : ι → List UInt8) : Inv input (.initial input) where
  stdout := rfl
  link _ := ⟨rfl, fun h => absurd h Bool.false_ne_true, fun h => nomatch h⟩
  nodup := List.nodup_nil
  waiting _ _ := List.not_mem_nil
  unaccepted _ _ := rfl
  ended _ h := absurd h List.not_mem_nil
  closing _ h := nomatch h
  current _ h := nomatch h

theorem inv_of_reachable (h : (system input).Reachable s) :
    Output input s ∧ (s.server ≠ .stopped → Inv input s) := by
  refine System.invariant_of_next (fun s => Output input s ∧ (s.server ≠ .stopped → Inv input s))
    ⟨(inv_initial input).output, fun _ => inv_initial input⟩ ?_ h
  rintro label s t ⟨-, hinv⟩ hstep
  have hruns : s.server ≠ .stopped := by
    intro hstopped
    simp [step, hstopped] at hstep
  exact (hinv hruns).step hstep

end Invariant

/-- The output consists of one piece for each connection, in the order in which they were accepted,
and each piece is a prefix of the client's input. While the server waits for a connection the piece
of every client that has exited successfully is its whole input. -/
theorem stdout_pieces {input : ι → List UInt8} {s : State ι} (h : (system input).Reachable s) :
    s.accepted.Nodup ∧
      (∃ piece : ι → List UInt8, s.stdout = s.accepted.flatMap piece ∧ (∀ i, piece i <+: input i) ∧
        (s.server = .accept → ∀ i ∈ s.accepted, (s.link i).pc = .done → piece i = input i)) := by
  obtain ⟨hout, hinv⟩ := inv_of_reachable h
  refine ⟨hout.nodup, _, hout.stdout, hout.written, fun haccept i hi hdone => ?_⟩
  have hs := hinv (by simp [haccept])
  have hconserved := (hs.link i).conserved
  obtain ⟨hsent, -⟩ := hs.ended i hi (by simp [haccept, Server.current])
  simpa [haccept, Server.held, hsent, hdone, ClientPC.buf, (hs.link i).done hdone] using hconserved

/-- The second client connects and sends while the first one is being served. -/
theorem stdout_pieces_two :
    ∃ s : State Bool, (system fun b => if b then [1, 2] else [3, 4]).Reachable s ∧
      s.accepted = [true, false] ∧ s.stdout = [1, 2, 3, 4] ∧
      ∃ piece : Bool → List UInt8, s.stdout = s.accepted.flatMap piece := by
  have hreach := System.reachable_of_schedule
    (System.Reachable.start (M := system fun b : Bool => if b then [1, 2] else [3, 4]) rfl)
    [.connect true, .connect false, .clientRead true 1, .accept, .clientRead false 2,
      .clientWrite false 2, .clientWrite true 1, .serverRead 1, .clientRead true 1, .serverWrite 1,
      .clientWrite true 1, .clientRead true 0, .serverRead 1, .serverWrite 1, .serverRead 0,
      .serverClose, .clientRead false 0, .accept, .serverRead 2, .serverWrite 2, .serverRead 0,
      .serverClose] rfl
  obtain ⟨-, piece, hpiece, -⟩ := stdout_pieces hreach
  exact ⟨_, hreach, rfl, rfl, piece, hpiece⟩

end TlpiExercises.SocketNamespace
