import TlpiExercises.CText
import TlpiExercises.Transition

/-!
# Numbered datagrams

The client sends the texts of 0, 1, 2 and so on, one datagram each. The server takes a
number from each datagram it gets and exits when it is not the one after the number
before. The channel between them may lose, repeat and reorder datagrams; a queue that
keeps them all in their order is one such channel.
-/
namespace TlpiExercises.UdpReliability
open CText

/-- `BUF_SIZE`. -/
abbrev bufSize : ℕ := 1024

/-- The datagram that is sent for `i`: `sprintf(buf, "%d", i)` with its final zero. -/
def message (i : Int32) : List UInt8 := printInt i.toInt ++ [0]

/-- The line that is printed for a datagram. -/
structure Report where
  now : Int32
  numBytes : ℕ
  text : List UInt8
  deriving DecidableEq, Repr

/-- The server runs, or has exited because of a number or because of `recvfrom`. -/
inductive Status where
  | running
  | notSequential
  | recvFailed
  deriving DecidableEq, Repr

structure Server where
  ant : Int32
  buf : List UInt8
  status : Status
  reports : List Report
  deriving DecidableEq, Repr

/-- The body of the server's loop for the datagram that `recvfrom` returns. -/
def Server.receive (s : Server) (datagram : List UInt8) : Server :=
  let data := datagram.take bufSize
  let buf := data ++ s.buf.drop data.length
  let now := atoi (cString buf)
  if now ≠ s.ant + 1 then { s with buf, status := .notSequential }
  else { s with buf, ant := now, reports := s.reports ++ [⟨now, data.length, cString buf⟩] }

/-- Client and server, with all datagrams sent and all delivered so far. -/
structure State where
  i : Int32
  clientUp : Bool
  sent : List (List UInt8)
  delivered : List (List UInt8)
  server : Server
  deriving DecidableEq, Repr

/-- Both before their loops; `buf` is not initialised. -/
def State.initial (buf : List UInt8) : State := ⟨0, true, [], [], ⟨-1, buf, .running, []⟩⟩

/-- The client sends its next datagram. -/
def State.send (s : State) : Option State :=
  if s.clientUp then some { s with i := s.i + 1, sent := s.sent ++ [message s.i] } else none

/-- `sendto` fails and the client exits. -/
def State.sendFails (s : State) : Option State :=
  if s.clientUp then some { s with clientUp := false } else none

/-- The server gets a datagram. -/
def State.deliver (d : List UInt8) (s : State) : Option State :=
  if s.server.status = .running then
    some { s with delivered := s.delivered ++ [d], server := s.server.receive d }
  else none

/-- `recvfrom` fails and the server exits. -/
def State.recvFails (s : State) : Option State :=
  if s.server.status = .running then
    some { s with server := { s.server with status := .recvFailed } }
  else none

section Unreliable

/-- `deliver k` is the arrival of the datagram that was sent as number `k`. -/
inductive Op where
  | send
  | sendFails
  | deliver (k : ℕ)
  | recvFails
  deriving DecidableEq, Repr

def step : Op → State → Option State
  | .send, s => s.send
  | .sendFails, s => s.sendFails
  | .deliver k, s => s.sent[k]?.bind fun d => s.deliver d
  | .recvFails, s => s.recvFails

/-- The runs over a channel that delivers what was sent any number of times, or never, in
any order. -/
def unreliable (buf : List UInt8) : System State := .ofNext (· = .initial buf) step

end Unreliable

section Queue

/-- The datagrams that are in the queue. -/
structure QueueState extends State where
  queue : List (List UInt8)

inductive QueueOp where
  | send
  | sendFails
  | deliver
  deriving DecidableEq, Repr

/-- A queue of at most `bound` datagrams; while it is full the client is blocked. -/
def queueStep (bound : ℕ) : QueueOp → QueueState → Option QueueState
  | .send, s =>
      if s.queue.length < bound then s.send.map fun t => ⟨t, s.queue ++ [message s.i]⟩ else none
  | .sendFails, s => s.sendFails.map fun t => ⟨t, s.queue⟩
  | .deliver, s =>
      match s.queue with
      | [] => none
      | d :: queue => (s.deliver d).map fun t => ⟨t, queue⟩

def queued (buf : List UInt8) (bound : ℕ) : System QueueState :=
  .ofNext (· = ⟨.initial buf, []⟩) (queueStep bound)

end Queue

/-- The first `n` datagrams of the client. -/
def messages (n : ℕ) : List (List UInt8) := (List.range n).map fun k => message (Int32.ofNat k)

/-- The report of number `k`. -/
def report (k : ℕ) : Report :=
  ⟨Int32.ofNat k, (message (Int32.ofNat k)).length, printInt k⟩

/-- The server has reported exactly 0 to `m - 1`. These were the datagrams it got, unless it
has exited on one more that was not number `m`. -/
def InSequence (s : State) : Prop :=
  ∃ m ≤ s.sent.length, s.server.reports = (List.range m).map report ∧
    match s.server.status with
    | .running | .recvFailed => s.delivered = messages m
    | .notSequential => ∃ k < s.sent.length, k ≠ m ∧
        s.delivered = messages m ++ [message (Int32.ofNat k)]

theorem toInt_one : (1 : Int32).toInt = 1 := rfl

theorem messages_succ (n : ℕ) :
    messages (n + 1) = messages n ++ [message (Int32.ofNat n)] := by
  simp [messages, List.range_succ]

@[simp] theorem length_messages (n : ℕ) : (messages n).length = n := by
  simp [messages]

theorem getElem?_messages {n k : ℕ} {d : List UInt8} (h : (messages n)[k]? = some d) :
    k < n ∧ d = message (Int32.ofNat k) := by
  obtain ⟨hk, hd⟩ := List.getElem?_eq_some_iff.mp h
  rw [length_messages] at hk
  refine ⟨hk, ?_⟩
  simpa [messages] using hd.symm

section Receive

variable (i : Int32)

/-- The text in the server's buffer ends with the datagram, whatever is behind it. -/
theorem cString_message (rest : List UInt8) : cString (message i ++ rest) = printInt i.toInt := by
  rw [message, List.append_assoc]
  exact (span_ne (zero_notMem_printInt _) _).1

theorem message_injective : Function.Injective message := by
  intro i j h
  rw [← atoi_printInt i, ← cString_message i [], h, cString_message, atoi_printInt]

theorem take_message : (message i).take bufSize = message i := by
  have hlen := printInt_length_le i
  refine List.take_of_length_le ?_
  rw [message, List.length_append, List.length_singleton, bufSize]
  omega

/-- The loop of the server on a datagram of the client. -/
theorem receive_message (s : Server) :
    s.receive (message i) =
      let buf := message i ++ s.buf.drop (message i).length
      if i = s.ant + 1 then
        { s with
          buf, ant := i
          reports := s.reports ++ [⟨i, (message i).length, printInt i.toInt⟩] }
      else { s with buf, status := .notSequential } := by
  simp only [Server.receive, take_message, cString_message, atoi_printInt, ite_not]

end Receive

section Runs

variable {s t : State}

/-- The datagrams sent are the client's first ones, its counter is the next, and the
server's last number is that of its last report. -/
structure Inv (s : State) : Prop where
  i_eq : s.i.toInt = s.sent.length
  sent_eq : s.sent = messages s.sent.length
  ant_eq : s.server.status = .running → s.server.ant.toInt = (s.server.reports.length : ℤ) - 1
  inSequence : InSequence s

theorem inv_initial (buf : List UInt8) : Inv (.initial buf) where
  i_eq := rfl
  sent_eq := rfl
  ant_eq _ := rfl
  inSequence := ⟨0, le_rfl, rfl, rfl⟩

/-- What the server has done stays in sequence when more is sent. -/
theorem InSequence.mono (h : InSequence s) (hsent : s.sent.length ≤ t.sent.length)
    (hserver : t.server = s.server) (hdelivered : t.delivered = s.delivered) : InSequence t := by
  obtain ⟨m, hm, hreports, hstatus⟩ := h
  refine ⟨m, hm.trans hsent, hserver ▸ hreports, ?_⟩
  rw [hserver, hdelivered]
  cases hs : s.server.status with
  | running => simpa [hs] using hstatus
  | recvFailed => simpa [hs] using hstatus
  | notSequential =>
      simp only [hs] at hstatus ⊢
      obtain ⟨k, hk, hne, heq⟩ := hstatus
      exact ⟨k, hk.trans_le hsent, hne, heq⟩

theorem Inv.send (h : Inv s) (hstep : s.send = some t) (hsends : t.sent.length < 2 ^ 31) :
    Inv t := by
  obtain ⟨-, ⟨⟩⟩ := Option.ite_none_right_eq_some.mp hstep
  rw [List.length_append, List.length_singleton] at hsends
  have hi : s.i = Int32.ofNat s.sent.length := by
    rw [← Int32.toInt_inj, h.i_eq, Int32.toInt_ofNat_of_lt (by omega)]
  refine ⟨?_, ?_, h.ant_eq, h.inSequence.mono (by simp) rfl rfl⟩
  · have hi := h.i_eq
    rw [toInt_add_of_le (by rw [toInt_one]; omega) (by rw [toInt_one]; omega), toInt_one, hi,
      List.length_append, List.length_singleton]
    rfl
  · rw [List.length_append, List.length_singleton, messages_succ, ← h.sent_eq, hi]

/-- The server compares with the number of reports it has made. -/
theorem Inv.next_iff (h : Inv s) (hrunning : s.server.status = .running) {k : ℕ}
    (hk : k < 2 ^ 31) (hreports : s.server.reports.length < 2 ^ 31) :
    Int32.ofNat k = s.server.ant + 1 ↔ k = s.server.reports.length := by
  have hant := h.ant_eq hrunning
  have hnext : (s.server.ant + 1).toInt = s.server.reports.length := by
    rw [toInt_add_of_le (by rw [toInt_one]; omega) (by rw [toInt_one]; omega), toInt_one, hant]
    omega
  rw [← Int32.toInt_inj, Int32.toInt_ofNat_of_lt hk, hnext, Nat.cast_inj]

theorem Inv.deliver {k : ℕ} (h : Inv s) (hsends : s.sent.length < 2 ^ 31)
    (hstep : step (.deliver k) s = some t) : Inv t := by
  obtain ⟨d, hd, hstep⟩ := Option.bind_eq_some_iff.mp hstep
  obtain ⟨hrunning, ⟨⟩⟩ := Option.ite_none_right_eq_some.mp hstep
  rw [h.sent_eq] at hd
  obtain ⟨hk, rfl⟩ := getElem?_messages hd
  obtain ⟨m, hm, hreports, hdelivered⟩ := h.inSequence
  simp only [hrunning] at hdelivered
  have hlen : s.server.reports.length = m := by simp [hreports]
  have hnext := h.next_iff hrunning (k := k) (by omega) (by omega)
  rw [hlen] at hnext
  by_cases hkm : k = m
  · subst hkm
    have hreceive := receive_message (Int32.ofNat k) s.server
    rw [if_pos (hnext.mpr rfl)] at hreceive
    have hvalue := Int32.toInt_ofNat_of_lt (hk.trans hsends)
    refine ⟨h.i_eq, h.sent_eq, fun _ => ?_, k + 1, hk, ?_, ?_⟩
    · simp [hreceive, hlen, hvalue]
    · simp [hreceive, hreports, List.range_succ, report, hvalue]
    · simp [hreceive, hrunning, hdelivered, messages_succ]
  · have hreceive := receive_message (Int32.ofNat k) s.server
    rw [if_neg fun heq => hkm (hnext.mp heq)] at hreceive
    refine ⟨h.i_eq, h.sent_eq, fun hstatus => ?_, m, hm, ?_, ?_⟩
    · simp [hreceive] at hstatus
    · simp [hreceive, hreports]
    · simp only [hreceive]
      exact ⟨k, hk, hkm, by rw [hdelivered]⟩

theorem sent_length_le {op : Op} (hstep : step op s = some t) :
    s.sent.length ≤ t.sent.length := by
  cases op with
  | send =>
      obtain ⟨-, ⟨⟩⟩ := Option.ite_none_right_eq_some.mp hstep
      simp
  | sendFails =>
      obtain ⟨-, ⟨⟩⟩ := Option.ite_none_right_eq_some.mp hstep
      rfl
  | deliver k =>
      obtain ⟨d, -, hd⟩ := Option.bind_eq_some_iff.mp hstep
      obtain ⟨-, ⟨⟩⟩ := Option.ite_none_right_eq_some.mp hd
      rfl
  | recvFails =>
      obtain ⟨-, ⟨⟩⟩ := Option.ite_none_right_eq_some.mp hstep
      rfl

theorem Inv.step {op : Op} (h : Inv s) (hsends : t.sent.length < 2 ^ 31)
    (hstep : step op s = some t) : Inv t := by
  cases op with
  | send => exact h.send hstep hsends
  | sendFails =>
      obtain ⟨-, ⟨⟩⟩ := Option.ite_none_right_eq_some.mp hstep
      exact ⟨h.i_eq, h.sent_eq, h.ant_eq, h.inSequence.mono le_rfl rfl rfl⟩
  | deliver k => exact h.deliver ((sent_length_le hstep).trans_lt hsends) hstep
  | recvFails =>
      obtain ⟨hrunning, ⟨⟩⟩ := Option.ite_none_right_eq_some.mp hstep
      obtain ⟨m, hm, hreports, hdelivered⟩ := h.inSequence
      rw [hrunning] at hdelivered
      exact ⟨h.i_eq, h.sent_eq, by simp, m, hm, hreports, hdelivered⟩

theorem inv_of_reachable {buf : List UInt8} (h : (unreliable buf).Reachable s)
    (hsends : s.sent.length < 2 ^ 31) : Inv s := by
  refine System.invariant_of_next (fun s => s.sent.length < 2 ^ 31 → Inv s) ?_ ?_ h hsends
  · exact fun _ => inv_initial buf
  · intro op u v hu hstep hv
    exact (hu ((sent_length_le hstep).trans_lt hv)).step hv hstep

end Runs

section Queue

variable {buf : List UInt8} {bound : ℕ} {s : QueueState}

/-- A queue loses nothing and keeps the order. -/
structure QueueInv (buf : List UInt8) (s : QueueState) : Prop where
  refines : (unreliable buf).Reachable s.toState
  sent_eq : s.sent = s.delivered ++ s.queue
  received : s.server.status ≠ .recvFailed

theorem status_receive (s : Server) (d : List UInt8) (h : s.status = .running) :
    (s.receive d).status ≠ .recvFailed := by
  simp only [Server.receive]
  split_ifs <;> simp [h]

theorem QueueInv.step {op : QueueOp} {t : QueueState} (h : QueueInv buf s)
    (hstep : queueStep bound op s = some t) : QueueInv buf t := by
  cases op with
  | send =>
      obtain ⟨-, hmap⟩ := Option.ite_none_right_eq_some.mp hstep
      obtain ⟨u, hu, rfl⟩ := Option.map_eq_some_iff.mp hmap
      have hnext := h.refines.next ⟨.send, hu⟩
      obtain ⟨-, ⟨⟩⟩ := Option.ite_none_right_eq_some.mp hu
      exact ⟨hnext, by simp [h.sent_eq], h.received⟩
  | sendFails =>
      obtain ⟨u, hu, rfl⟩ := Option.map_eq_some_iff.mp hstep
      have hnext := h.refines.next ⟨.sendFails, hu⟩
      obtain ⟨-, ⟨⟩⟩ := Option.ite_none_right_eq_some.mp hu
      exact ⟨hnext, h.sent_eq, h.received⟩
  | deliver =>
      simp only [queueStep] at hstep
      split at hstep
      case h_1 => cases hstep
      case h_2 d queue hqueue =>
        obtain ⟨u, hu, rfl⟩ := Option.map_eq_some_iff.mp hstep
        have hget : s.sent[s.delivered.length]? = some d := by
          rw [h.sent_eq, hqueue]
          simp
        have hnext := h.refines.next ⟨.deliver s.delivered.length, by
          rw [UdpReliability.step, hget, Option.bind_some, hu]⟩
        obtain ⟨hrunning, ⟨⟩⟩ := Option.ite_none_right_eq_some.mp hu
        exact ⟨hnext, by simp [h.sent_eq, hqueue], status_receive _ _ hrunning⟩

theorem queueInv_initial (buf : List UInt8) : QueueInv buf ⟨.initial buf, []⟩ :=
  ⟨.start rfl, rfl, by simp [State.initial]⟩

theorem queueInv_of_reachable (h : (queued buf bound).Reachable s) : QueueInv buf s :=
  System.invariant_of_next _ (queueInv_initial buf) (fun _ _ _ hu hstep => hu.step hstep) h

/-- The datagrams that come through a queue are the first ones that were sent. -/
theorem running_of_queued (h : QueueInv buf s) (hsends : s.sent.length < 2 ^ 31) :
    s.server.status = .running := by
  have hinv := inv_of_reachable h.refines hsends
  obtain ⟨m, hm, -, hstatus⟩ := hinv.inSequence
  cases hs : s.server.status with
  | running => rfl
  | recvFailed => exact absurd hs h.received
  | notSequential =>
      simp only [hs] at hstatus
      obtain ⟨k, hk, hne, hdelivered⟩ := hstatus
      have hget : s.sent[m]? = some (message (Int32.ofNat k)) := by
        rw [h.sent_eq, hdelivered]
        simp
      rw [hinv.sent_eq] at hget
      obtain ⟨hm, heq⟩ := getElem?_messages hget
      have hval := congrArg Int32.toInt (message_injective heq)
      rw [Int32.toInt_ofNat_of_lt (by omega), Int32.toInt_ofNat_of_lt (by omega)] at hval
      omega

end Queue

/-- Over any channel the reports are in sequence and the server exits at the first datagram
that is not. Through a queue it never exits and reports only what was sent. -/
theorem reports_in_sequence (buf : List UInt8) :
    (∀ s, (unreliable buf).Reachable s → s.sent.length < 2 ^ 31 → InSequence s) ∧
      ∀ bound s, (queued buf bound).Reachable s → s.sent.length < 2 ^ 31 →
        s.server.status = .running ∧
          ∃ m ≤ s.sent.length, s.server.reports = (List.range m).map report := by
  constructor
  · exact fun s hs hsends => (inv_of_reachable hs hsends).inSequence
  · intro bound s hs hsends
    have hqueue := queueInv_of_reachable hs
    obtain ⟨m, hm, hreports, -⟩ := (inv_of_reachable hqueue.refines hsends).inSequence
    exact ⟨running_of_queued hqueue hsends, m, hm, hreports⟩

/-- Two datagrams, of which the channel delivers only the second; and the same two through a
queue of one. -/
theorem reports_in_sequence_two :
    (∃ s, (unreliable []).Reachable s ∧ s.server.status = .notSequential ∧ InSequence s) ∧
      ∃ s, (queued [] 1).Reachable s ∧ s.server.reports.map Report.now = [0, 1] ∧
        s.server.status = .running := by
  constructor
  · have hreach := System.reachable_of_schedule
      (System.Reachable.start (M := unreliable []) rfl) [.send, .send, .deliver 1] rfl
    exact ⟨_, hreach, rfl, (reports_in_sequence []).1 _ hreach (by decide)⟩
  · have hreach := System.reachable_of_schedule
      (System.Reachable.start (M := queued [] 1) rfl) [.send, .deliver, .send, .deliver] rfl
    exact ⟨_, hreach, rfl, ((reports_in_sequence []).2 1 _ hreach (by decide)).1⟩

end TlpiExercises.UdpReliability
