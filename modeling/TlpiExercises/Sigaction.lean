import TlpiExercises.SignalDelivery

/-!
# Counting the signals that are caught

One handler for all signals that can be caught: it sets `gotSigint` for `SIGINT` and increments
`sigCnt[sig]` for the others, with a load and a store between which other handlers may run. With
an argument the program blocks all signals, sleeps, prints what is pending and unblocks them; then
it waits for `gotSigint` and prints the counts. The runs start when the handlers are established.
-/
namespace TlpiExercises.Sigaction
open SignalDelivery

/-- `NSIG`. -/
abbrev nsig : ℕ := 65

/-- `SIGINT`. -/
abbrev sigint : ℕ := 2

/-- The signals for which `sigaction` succeeds: not `SIGKILL`, `SIGSTOP` and the two that the C
library keeps for its threads. -/
def catchable (n : ℕ) : Bool := 1 ≤ n && n < nsig && n != 9 && n != 19 && n != 32 && n != 33

/-- What a call of `handler` does next: the test, the load of `sigCnt[sig]`, the store of one more
than what was loaded, or the return. -/
inductive PC where
  | test
  | load
  | store (v : Int32)
  | done
  deriving DecidableEq, Repr

/-- What `main` does next, from the call that blocks all signals on. -/
inductive MainPC where
  | block
  | sleep
  | getPending
  | unblock
  | loop
  | print (n : ℕ)
  | exited
  deriving DecidableEq, Repr

/-- A line of the output: a pending signal, the empty set, or how often a signal was caught. -/
inductive Line where
  | pending (n : ℕ)
  | emptySet
  | caught (n : ℕ) (cnt : Int32)
  deriving DecidableEq, Repr

structure Mem where
  sigCnt : ℕ → Int32
  gotSigint : Bool
  pc : MainPC
  output : List Line

def Mem.initial (args : Bool) : Mem := ⟨fun _ => 0, false, if args then .block else .loop, []⟩

def handler (sig : ℕ) : PC → Mem → Option (PC × Mem)
  | .test, m => some (if sig = sigint then (.done, { m with gotSigint := true }) else (.load, m))
  | .load, m => some (.store (m.sigCnt sig), m)
  | .store v, m => some (.done, { m with sigCnt := Function.update m.sigCnt sig (v + 1) })
  | .done, _ => none

def printSigset (sigset : ℕ → Bool) : List Line :=
  let cnt := (List.range' 1 (nsig - 1)).filter sigset
  if cnt = [] then [.emptySet] else cnt.map .pending

def main (pending : ℕ → ℕ) (blocked : ℕ → Bool) (m : Mem) : (ℕ → Bool) × Mem :=
  match m.pc with
  | .block => (fun _ => true, { m with pc := .sleep })
  | .sleep => (blocked, { m with pc := .getPending })
  | .getPending => (blocked, { m with
      pc := .unblock
      output := m.output ++ printSigset fun sig => 0 < pending sig && blocked sig })
  | .unblock => (fun _ => false, { m with pc := .loop })
  | .loop => (blocked, if m.gotSigint then { m with pc := .print 1 } else m)
  | .print n => (blocked,
      if n < nsig then
        { m with
          pc := .print (n + 1)
          output := m.output ++ if m.sigCnt n ≠ 0 then [.caught n (m.sigCnt n)] else [] }
      else { m with pc := .exited })
  | .exited => (blocked, m)

/-- `SIGCONT`, and the stop signals that can be caught. -/
abbrev sigcont : ℕ := 18

def isStop (n : ℕ) : Bool := n == 20 || n == 21 || n == 22

/-- Sending `SIGCONT` discards the pending stop signals, and sending one of these a pending
`SIGCONT`. -/
def discards (sent n : ℕ) : Bool := sent == sigcont && isStop n || isStop sent && n == sigcont

theorem discards_self (n : ℕ) : discards n n = false := by
  by_cases hn : n = sigcont
  · subst hn
    rfl
  · simp [discards, hn]

/-- Only standard signals are discarded. -/
theorem lt_of_discards {sent n : ℕ} (h : discards sent n) : n < 34 := by
  simp only [discards, isStop, sigcont, Bool.or_eq_true, Bool.and_eq_true, beq_iff_eq] at h
  omega

/-- `sa_flags` is 0 and `sa_mask` is empty; the real-time signals queue up. -/
def program : Program ℕ PC Mem where
  queued n := 34 ≤ n
  discards := discards
  discards_self := discards_self
  nodefer _ := false
  resethand _ := false
  entry := .test
  handler := handler
  main := main
  exited m := m.pc = .exited

/-- The runs, with or without an argument. -/
def system (args : Bool) : System (Proc ℕ PC Mem) :=
  program.system (fun n => catchable n = true) catchable (.initial args)

section Counts

variable {args : Bool} {p q : Proc ℕ PC Mem} {n : ℕ}

theorem caught_of_system (h : (system args).Reachable p) : Caught catchable p :=
  caught_of_reachable (fun _ => rfl) (fun _ hi => hi) h

theorem nested_of_system (h : (system args).Reachable p) : Nested p.blocked p.frames :=
  nested_of_reachable (fun _ => rfl) h

@[simp] theorem main_sigCnt (pending : ℕ → ℕ) (blocked : ℕ → Bool) (m : Mem) :
    (main pending blocked m).2.sigCnt = m.sigCnt := by
  unfold main
  split <;> first | rfl | (split_ifs <;> rfl)

@[simp] theorem main_gotSigint (pending : ℕ → ℕ) (blocked : ℕ → Bool) (m : Mem) :
    (main pending blocked m).2.gotSigint = m.gotSigint := by
  unfold main
  split <;> first | rfl | (split_ifs <;> rfl)

/-- The number of calls for `n` that are under way and have not stored. -/
def busy (n : ℕ) : List (Frame ℕ PC) → ℕ
  | [] => 0
  | f :: rest => (if f.sig = n ∧ f.pc ≠ .done then 1 else 0) + busy n rest

theorem busy_self (n : ℕ) {pc : PC} (hpc : pc ≠ .done) (saved : ℕ → Bool)
    (rest : List (Frame ℕ PC)) : busy n (⟨n, pc, saved⟩ :: rest) = busy n rest + 1 := by
  rw [busy, if_pos ⟨rfl, hpc⟩, Nat.add_comm]

theorem busy_done (n sig : ℕ) (saved : ℕ → Bool) (rest : List (Frame ℕ PC)) :
    busy n (⟨sig, .done, saved⟩ :: rest) = busy n rest := by
  rw [busy, if_neg fun h => h.2 rfl, Nat.zero_add]

theorem busy_of_ne {sig : ℕ} (h : sig ≠ n) (pc : PC) (saved : ℕ → Bool)
    (rest : List (Frame ℕ PC)) : busy n (⟨sig, pc, saved⟩ :: rest) = busy n rest := by
  rw [busy, if_neg fun h' => h h'.1, Nat.zero_add]

/-- The count is what was delivered but for the call under way, and that call has loaded the
current count. -/
structure Counts (n : ℕ) (p : Proc ℕ PC Mem) : Prop where
  loaded : ∀ f ∈ p.frames, f.sig = n → ∀ v, f.pc = .store v → v = p.mem.sigCnt n
  count : p.mem.sigCnt n + .ofNat (busy n p.frames) = .ofNat (p.delivered n)

theorem Counts.deliver (h : Counts n p) {i : ℕ} (hi : p.handled i) :
    Counts n (program.deliver i p) := by
  rw [deliver_of_handled hi]
  constructor
  · intro f hf hfn v hv
    rcases List.mem_cons.mp hf with rfl | hf
    · cases hv
    · exact h.loaded f hf hfn v hv
  · have hcount := h.count
    show p.mem.sigCnt n + .ofNat (busy n (⟨i, .test, p.blocked⟩ :: p.frames)) =
      .ofNat (Function.update p.delivered i (p.delivered i + 1) n)
    by_cases hin : i = n
    · subst hin
      rw [busy_self i (by decide), Function.update_self, Int32.ofNat_add, Int32.ofNat_add,
        ← Int32.add_assoc, hcount]
    · rw [busy_of_ne hin, Function.update_of_ne (Ne.symm hin)]
      exact hcount

theorem handler_sigCnt_of_ne {sig : ℕ} (hsig : sig ≠ n) {pc pc' : PC} {m m' : Mem}
    (h : handler sig pc m = some (pc', m')) : m'.sigCnt n = m.sigCnt n := by
  cases pc with
  | test =>
      simp only [handler, Option.some.injEq] at h
      split_ifs at h <;> cases h <;> rfl
  | load =>
      cases h
      rfl
  | store v =>
      cases h
      exact Function.update_of_ne hsig.symm ..
  | done => cases h

/-- A call for another signal does not touch the counter. -/
theorem Counts.handler_of_ne (h : Counts n p) {f : Frame ℕ PC} {rest : List (Frame ℕ PC)}
    (hframes : p.frames = f :: rest) (hf : f.sig ≠ n) : Counts n (program.runHandler f rest p) := by
  obtain ⟨hloaded, hcount⟩ := h
  rw [hframes] at hloaded hcount
  obtain ⟨sig, pc, saved⟩ := f
  rw [busy_of_ne hf] at hcount
  unfold Program.runHandler
  split
  next pc' m' hrun =>
    have hsame : m'.sigCnt n = p.mem.sigCnt n := handler_sigCnt_of_ne hf hrun
    refine ⟨fun g hg hgn v hv => ?_, ?_⟩
    · rcases List.mem_cons.mp hg with rfl | hg
      · exact absurd hgn hf
      · rw [hsame]
        exact hloaded g (List.mem_cons_of_mem _ hg) hgn v hv
    · rw [hsame, busy_of_ne hf]
      exact hcount
  next => exact ⟨fun g hg => hloaded g (List.mem_cons_of_mem _ hg), hcount⟩

/-- A step of the only call for `n`. -/
theorem Counts.handler_self (hn : n ≠ sigint) (h : Counts n p) {f : Frame ℕ PC}
    {rest : List (Frame ℕ PC)} (hframes : p.frames = f :: rest) (hf : f.sig = n)
    (halone : ∀ g ∈ rest, g.sig ≠ n) : Counts n (program.runHandler f rest p) := by
  obtain ⟨hloaded, hcount⟩ := h
  rw [hframes] at hloaded hcount
  have htop := hloaded f List.mem_cons_self hf
  obtain ⟨sig, pc, saved⟩ := f
  obtain rfl : sig = n := hf
  -- no other call has loaded the counter
  have honly : ∀ {pc' : PC} {x : Int32}, (∀ v, pc' = .store v → v = x) →
      ∀ g ∈ ⟨sig, pc', saved⟩ :: rest, g.sig = sig → ∀ v, g.pc = .store v → v = x := by
    intro pc' x hpc g hg hgn v hv
    rcases List.mem_cons.mp hg with rfl | hg
    · exact hpc v hv
    · exact absurd hgn (halone g hg)
  cases pc with
  | test =>
      rw [busy_self sig (by decide)] at hcount
      have hrun : program.runHandler ⟨sig, .test, saved⟩ rest p =
          { p with frames := ⟨sig, .load, saved⟩ :: rest } := by
        simp [Program.runHandler, program, handler, hn]
      rw [hrun]
      refine ⟨honly nofun, ?_⟩
      rw [busy_self sig (by decide)]
      exact hcount
  | load =>
      rw [busy_self sig (by decide)] at hcount
      refine ⟨honly fun v hv => (PC.store.inj hv).symm, ?_⟩
      show p.mem.sigCnt sig + .ofNat (busy sig (⟨sig, .store _, saved⟩ :: rest)) =
        .ofNat (p.delivered sig)
      rw [busy_self sig (by simp)]
      exact hcount
  | store v =>
      rw [busy_self sig (by simp), Int32.ofNat_add] at hcount
      refine ⟨honly nofun, ?_⟩
      show Function.update p.mem.sigCnt sig (v + 1) sig +
        .ofNat (busy sig (⟨sig, .done, saved⟩ :: rest)) = .ofNat (p.delivered sig)
      rw [Function.update_self, busy_done, htop v rfl, Int32.add_assoc, Int32.add_comm 1]
      exact hcount
  | done =>
      rw [busy_done] at hcount
      exact ⟨fun g hg hgn => absurd hgn (halone g hg), hcount⟩

theorem counts_of_reachable (hn : n ≠ sigint) (h : (system args).Reachable p) : Counts n p := by
  refine Program.invariant (Counts n) ⟨fun _ hf => absurd hf List.not_mem_nil, rfl⟩ ?_ h
  intro p q hp _ _ hinv hstep
  cases hstep with
  | generate i _ => exact ⟨hinv.loaded, hinv.count⟩
  | deliver i hpending _ =>
      have hcaught := caught_of_system hp
      exact hinv.deliver (hcaught.kept ▸ hcaught.pending i hpending)
  | handler f rest hframes =>
      have hnested := nested_of_system hp
      rw [hframes] at hnested
      by_cases hf : f.sig = n
      · exact hinv.handler_self hn hframes hf fun g hg => hf ▸ hnested.sig_ne hg
      · exact hinv.handler_of_ne hframes hf
  | main hframes =>
      have hsame : (program.runMain p).mem.sigCnt = p.mem.sigCnt := main_sigCnt ..
      refine ⟨fun f hf => ?_, ?_⟩
      · rw [hsame]
        exact hinv.loaded f hf
      · rw [hsame]
        exact hinv.count

/-- While `gotSigint` is not set, every call for `SIGINT` is still before its test. -/
structure Got (p : Proc ℕ PC Mem) : Prop where
  pos : p.mem.gotSigint → 0 < p.delivered sigint
  waiting : p.mem.gotSigint = false → p.delivered sigint = busy sigint p.frames ∧
    ∀ f ∈ p.frames, f.sig = sigint → f.pc = .test

theorem handler_gotSigint {sig : ℕ} {pc pc' : PC} {m m' : Mem}
    (h : handler sig pc m = some (pc', m')) :
    m'.gotSigint = (m.gotSigint || (sig == sigint && pc == .test)) := by
  cases pc with
  | test =>
      simp only [handler, Option.some.injEq] at h
      split_ifs at h with hsig <;> cases h <;> simp [hsig]
  | load =>
      cases h
      simp
  | store v =>
      cases h
      simp
  | done => cases h

theorem Got.deliver (h : Got p) {i : ℕ} (hi : p.handled i) : Got (program.deliver i p) := by
  rw [deliver_of_handled hi]
  refine ⟨fun hgot => ?_, fun hnot => ?_⟩
  · have hpos := h.pos hgot
    show 0 < Function.update p.delivered i (p.delivered i + 1) sigint
    by_cases hi : sigint = i
    · rw [← hi, Function.update_self]
      exact Nat.succ_pos _
    · rwa [Function.update_of_ne hi]
  · obtain ⟨hcount, htest⟩ := h.waiting hnot
    refine ⟨?_, fun f hf hsig => ?_⟩
    · show Function.update p.delivered i (p.delivered i + 1) sigint =
        busy sigint (⟨i, .test, p.blocked⟩ :: p.frames)
      by_cases hi : i = sigint
      · subst hi
        rw [Function.update_self, busy_self _ (by decide), hcount]
      · rw [Function.update_of_ne (Ne.symm hi), busy_of_ne hi, hcount]
    · rcases List.mem_cons.mp hf with rfl | hf
      · rfl
      · exact htest f hf hsig

theorem Got.handler (h : Got p) {f : Frame ℕ PC} {rest : List (Frame ℕ PC)}
    (hframes : p.frames = f :: rest) : Got (program.runHandler f rest p) := by
  obtain ⟨hpos, hwaiting⟩ := h
  rw [hframes] at hwaiting
  obtain ⟨sig, pc, saved⟩ := f
  unfold Program.runHandler
  split
  next pc' m' hrun =>
    have hgot := handler_gotSigint hrun
    refine ⟨fun hset => ?_, fun hnot => ?_⟩
    · cases hbefore : p.mem.gotSigint with
      | true => exact hpos hbefore
      | false =>
          obtain ⟨hcount, -⟩ := hwaiting hbefore
          have hsig : sig = sigint ∧ pc = .test := by
            simpa [hgot, hbefore] using hset
          obtain ⟨rfl, rfl⟩ := hsig
          rw [busy_self _ (by decide)] at hcount
          exact hcount ▸ Nat.succ_pos _
    · rw [hgot, Bool.or_eq_false_iff] at hnot
      obtain ⟨hcount, htest⟩ := hwaiting hnot.1
      have hsig : sig ≠ sigint := by
        rintro rfl
        have hpc : pc = .test := htest _ List.mem_cons_self rfl
        simp [hpc] at hnot
      rw [busy_of_ne hsig] at hcount
      refine ⟨by rw [busy_of_ne hsig]; exact hcount, fun g hg hgs => ?_⟩
      rcases List.mem_cons.mp hg with rfl | hg
      · exact absurd hgs hsig
      · exact htest g (List.mem_cons_of_mem _ hg) hgs
  next hreturn =>
    have hdone : pc = .done := by
      cases pc with
      | done => rfl
      | _ => cases hreturn
    refine ⟨hpos, fun hnot => ?_⟩
    obtain ⟨hcount, htest⟩ := hwaiting hnot
    rw [hdone, busy_done] at hcount
    exact ⟨hcount, fun g hg => htest g (List.mem_cons_of_mem _ hg)⟩

theorem got_of_reachable (h : (system args).Reachable p) : Got p := by
  have hstart : Got (Program.start catchable (.initial args)) :=
    ⟨fun hgot => absurd hgot Bool.false_ne_true,
      fun _ => ⟨rfl, fun _ hf => absurd hf List.not_mem_nil⟩⟩
  refine Program.invariant Got hstart ?_ h
  intro p q hp _ _ hinv hstep
  cases hstep with
  | generate i _ => exact ⟨hinv.pos, hinv.waiting⟩
  | deliver i hpending _ =>
      have hcaught := caught_of_system hp
      exact hinv.deliver (hcaught.kept ▸ hcaught.pending i hpending)
  | handler f rest hframes => exact hinv.handler hframes
  | main hframes =>
      have hsame : (program.runMain p).mem.gotSigint = p.mem.gotSigint := main_gotSigint ..
      exact ⟨fun hgot => hinv.pos (hsame ▸ hgot), fun hnot => hinv.waiting (hsame ▸ hnot)⟩

end Counts

theorem sigCnt_eq {args : Bool} {p : Proc ℕ PC Mem} (h : (system args).Reachable p)
    (hframes : p.frames = []) {n : ℕ} (hn : n ≠ sigint) :
    p.mem.sigCnt n = .ofNat (p.delivered n) := by
  have hcount := (counts_of_reachable hn h).count
  rw [hframes] at hcount
  exact (Int32.add_zero _).symm.trans hcount

/-- Whenever no handler runs, each count is the number of times its signal was delivered, as an
`int`, and `gotSigint` says whether `SIGINT` was. A real-time signal is delivered as often as it
was sent, or is pending; of a standard signal instances that were pending at once are merged, and
a pending one can be discarded, but only `SIGCONT` and the stop signals, by each other. -/
theorem counts_exact {args : Bool} {p : Proc ℕ PC Mem} (h : (system args).Reachable p)
    (hframes : p.frames = []) :
    (∀ n, n ≠ sigint → p.mem.sigCnt n = .ofNat (p.delivered n)) ∧
      (p.mem.gotSigint ↔ 0 < p.delivered sigint) ∧
      ∀ n, p.delivered n + p.pending n + p.discarded n ≤ p.generated n ∧
        (34 ≤ n → p.delivered n + p.pending n = p.generated n) ∧
        (0 < p.generated n → 0 < p.delivered n + p.pending n + p.discarded n) ∧
        (0 < p.discarded n → ∃ k, discards k n ∧ 0 < p.generated k) := by
  refine ⟨fun n hn => sigCnt_eq h hframes hn, ⟨(got_of_reachable h).pos, fun hpos => ?_⟩,
    fun n => ?_⟩
  · by_contra hnot
    obtain ⟨hcount, -⟩ := (got_of_reachable h).waiting (by simpa using hnot)
    rw [hcount, hframes] at hpos
    contradiction
  · have hacc := accounted_of_reachable h n
    refine ⟨hacc.le, fun hn => ?_, hacc.pos, hacc.cause⟩
    have hkept : p.discarded n = 0 := by
      by_contra hne
      obtain ⟨k, hk, -⟩ := hacc.cause (Nat.pos_of_ne_zero hne)
      exact absurd (lt_of_discards hk) (Nat.not_lt.mpr hn)
    have hsum := hacc.eq_of_queued (decide_eq_true hn)
    rwa [hkept] at hsum

/-- `SIGUSR1` is sent twice while the handler of the first one waits for that of `SIGUSR2`, which
runs between its load and its store. -/
theorem counts_exact_nested :
    ∃ p, (system false).Reachable p ∧ p.frames = [] ∧ p.delivered 10 = 1 ∧ p.pending 10 = 1 ∧
      p.mem.sigCnt 10 = 1 ∧ p.mem.sigCnt 12 = 1 ∧ (p.mem.gotSigint ↔ 0 < p.delivered sigint) := by
  have hreach : (system false).Reachable _ := Program.reachable_of_schedule
    [.generate 10, .deliver 10, .handler, .handler, .generate 12, .deliver 12, .handler, .handler,
      .generate 10, .generate 10, .handler, .handler, .handler, .handler]
    (by simp [catchable, nsig]) rfl
  obtain ⟨hcount, hgot, -⟩ := counts_exact hreach rfl
  exact ⟨_, hreach, rfl, rfl, rfl, (hcount 10 (by decide)).trans rfl,
    (hcount 12 (by decide)).trans rfl, hgot⟩

section Output

variable {args : Bool} {p q s t : Proc ℕ PC Mem}

theorem handler_output {sig : ℕ} {pc pc' : PC} {m m' : Mem}
    (h : handler sig pc m = some (pc', m')) : m'.output = m.output ∧ m'.pc = m.pc := by
  cases pc with
  | test =>
      simp only [handler, Option.some.injEq] at h
      split_ifs at h <;> cases h <;> exact ⟨rfl, rfl⟩
  | load =>
      cases h
      exact ⟨rfl, rfl⟩
  | store v =>
      cases h
      exact ⟨rfl, rfl⟩
  | done => cases h

/-- Only `main` prints. -/
theorem main_or_quiet {sent : ℕ → Prop} (h : program.Step sent p q) :
    p.frames = [] ∧ q = program.runMain p ∨
      q.mem.output = p.mem.output ∧ q.mem.pc = p.mem.pc ∧
        (p.mem.gotSigint → q.mem.gotSigint) := by
  cases h with
  | generate i _ => exact .inr ⟨rfl, rfl, id⟩
  | deliver i _ _ =>
      rw [deliver_mem]
      exact .inr ⟨rfl, rfl, id⟩
  | handler f rest _ =>
      right
      unfold Program.runHandler
      split
      next pc' m' hrun =>
        obtain ⟨houtput, hpc⟩ := handler_output hrun
        refine ⟨houtput, hpc, fun hgot => ?_⟩
        rw [handler_gotSigint hrun, hgot, Bool.true_or]
      next => exact ⟨rfl, rfl, id⟩
  | main hframes => exact .inl ⟨hframes, rfl⟩

/-- `main` has left its loop. -/
def MainPC.printing : MainPC → Bool
  | .print _ | .exited => true
  | _ => false

/-- No call for `SIGINT` counts. -/
structure Silent (p : Proc ℕ PC Mem) : Prop where
  zero : p.mem.sigCnt sigint = 0
  calls : ∀ f ∈ p.frames, f.sig = sigint → f.pc = .test ∨ f.pc = .done

theorem Silent.handler (h : Silent p) {f : Frame ℕ PC} {rest : List (Frame ℕ PC)}
    (hframes : p.frames = f :: rest) : Silent (program.runHandler f rest p) := by
  obtain ⟨hzero, hcalls⟩ := h
  rw [hframes] at hcalls
  have htop := hcalls f List.mem_cons_self
  have hrest : ∀ g ∈ rest, g.sig = sigint → g.pc = .test ∨ g.pc = .done :=
    fun g hg => hcalls g (List.mem_cons_of_mem f hg)
  obtain ⟨sig, pc, saved⟩ := f
  unfold Program.runHandler
  split
  next pc' m' hrun =>
    by_cases hsig : sig = sigint
    · subst hsig
      have hpc : pc = .test := by
        rcases htop rfl with rfl | rfl
        · rfl
        · cases hrun
      subst hpc
      obtain ⟨rfl, rfl⟩ : PC.done = pc' ∧ { p.mem with gotSigint := true } = m' := by
        simpa [program, Sigaction.handler] using hrun
      refine ⟨hzero, fun g hg hgs => ?_⟩
      rcases List.mem_cons.mp hg with rfl | hg
      · exact .inr rfl
      · exact hrest g hg hgs
    · refine ⟨(handler_sigCnt_of_ne hsig hrun).trans hzero, fun g hg hgs => ?_⟩
      rcases List.mem_cons.mp hg with rfl | hg
      · exact absurd hgs hsig
      · exact hrest g hg hgs
  next => exact ⟨hzero, hrest⟩

theorem silent_of_reachable (h : (system args).Reachable p) : Silent p := by
  have hstart : Silent (Program.start catchable (.initial args)) :=
    ⟨rfl, fun _ hf => absurd hf List.not_mem_nil⟩
  refine Program.invariant Silent hstart ?_ h
  intro p q hp _ _ hinv hstep
  cases hstep with
  | generate i _ => exact ⟨hinv.zero, hinv.calls⟩
  | deliver i hpending _ =>
      have hcaught := caught_of_system hp
      rw [deliver_of_handled (hcaught.kept ▸ hcaught.pending i hpending)]
      refine ⟨hinv.zero, fun f hf hfs => ?_⟩
      rcases List.mem_cons.mp hf with rfl | hf
      · exact .inl rfl
      · exact hinv.calls f hf hfs
  | handler f rest hframes => exact hinv.handler hframes
  | main hframes =>
      have hsame : (program.runMain p).mem.sigCnt = p.mem.sigCnt := main_sigCnt ..
      exact ⟨by rw [hsame]; exact hinv.zero, hinv.calls⟩

/-- What the lines that were printed say. -/
structure Lines (p : Proc ℕ PC Mem) : Prop where
  caught : ∀ n c, .caught n c ∈ p.mem.output →
    n < nsig ∧ n ≠ sigint ∧ c ≠ 0 ∧ ∃ m ≤ p.delivered n, c = .ofNat m
  pending : ∀ n, .pending n ∈ p.mem.output → 0 < p.generated n
  got : p.mem.pc.printing → p.mem.gotSigint

/-- A step that prints nothing. -/
theorem Lines.congr (h : Lines p) (houtput : q.mem.output = p.mem.output)
    (hpc : q.mem.pc.printing = p.mem.pc.printing) (hgot : p.mem.gotSigint → q.mem.gotSigint)
    (hdelivered : ∀ n, p.delivered n ≤ q.delivered n)
    (hgenerated : ∀ n, p.generated n ≤ q.generated n) : Lines q where
  caught n c hc := by
    obtain ⟨hlt, hne, hpos, m, hle, hm⟩ := h.caught n c (houtput ▸ hc)
    exact ⟨hlt, hne, hpos, m, hle.trans (hdelivered n), hm⟩
  pending n hn := (h.pending n (houtput ▸ hn)).trans_le (hgenerated n)
  got hprinted := hgot (h.got (hpc ▸ hprinted))

theorem of_pending_mem_printSigset {sigset : ℕ → Bool} {n : ℕ}
    (h : .pending n ∈ printSigset sigset) : sigset n := by
  simp only [printSigset] at h
  split_ifs at h
  · simp at h
  · simp only [List.mem_map, List.mem_filter, Line.pending.injEq, exists_eq_right] at h
    exact h.2

theorem caught_notMem_printSigset (sigset : ℕ → Bool) (n : ℕ) (c : Int32) :
    Line.caught n c ∉ printSigset sigset := by
  simp only [printSigset]
  split_ifs <;> simp

theorem Lines.main_getPending (h : Lines p) (hp : (system args).Reachable p)
    (hpc : p.mem.pc = .getPending) : Lines (program.runMain p) := by
  have hmain : (program.runMain p).mem = { p.mem with
      pc := .unblock
      output := p.mem.output ++ printSigset fun sig => 0 < p.pending sig && p.blocked sig } := by
    simp [Program.runMain, program, main, hpc]
  refine ⟨fun n c hc => ?_, fun n hn => ?_, fun hprinting => ?_⟩
  · rw [hmain] at hc
    rcases List.mem_append.mp hc with hc | hc
    · exact h.caught n c hc
    · exact absurd hc (caught_notMem_printSigset _ n c)
  · rw [hmain] at hn
    rcases List.mem_append.mp hn with hn | hn
    · exact h.pending n hn
    · have hset := of_pending_mem_printSigset hn
      have hle := (accounted_of_reachable hp n).le
      simp only [Bool.and_eq_true, decide_eq_true_eq] at hset
      show 0 < p.generated n
      omega
  · rw [hmain] at hprinting
    contradiction

theorem runMain_print {n : ℕ} (hpc : p.mem.pc = .print n) (hn : n < nsig) :
    (program.runMain p).mem = { p.mem with
      pc := .print (n + 1)
      output := p.mem.output ++
        if p.mem.sigCnt n ≠ 0 then [.caught n (p.mem.sigCnt n)] else [] } := by
  simp [Program.runMain, program, main, hpc, hn]

theorem Lines.main_print (h : Lines p) (hp : (system args).Reachable p) (hframes : p.frames = [])
    {n : ℕ} (hpc : p.mem.pc = .print n) (hn : n < nsig) : Lines (program.runMain p) := by
  have hmain := runMain_print hpc hn
  have hset : p.mem.gotSigint := h.got (by rw [hpc]; rfl)
  refine ⟨fun k c hc => ?_, fun k hk => ?_, fun _ => by rwa [hmain]⟩
  · rw [hmain] at hc
    rcases List.mem_append.mp hc with hc | hc
    · exact h.caught k c hc
    obtain ⟨hne, rfl, rfl⟩ : p.mem.sigCnt n ≠ 0 ∧ k = n ∧ c = p.mem.sigCnt n := by
      split_ifs at hc with hne
      · exact ⟨hne, by simpa using hc⟩
      · cases hc
    have hk : k ≠ sigint := by
      rintro rfl
      exact hne (silent_of_reachable hp).zero
    exact ⟨hn, hk, hne, p.delivered k, le_rfl, sigCnt_eq hp hframes hk⟩
  · rw [hmain] at hk
    rcases List.mem_append.mp hk with hk | hk
    · exact h.pending k hk
    · split_ifs at hk <;> simp at hk

theorem Lines.main (h : Lines p) (hp : (system args).Reachable p) (hframes : p.frames = []) :
    Lines (program.runMain p) := by
  have hmain : (program.runMain p).mem = (Sigaction.main p.pending p.blocked p.mem).2 := rfl
  unfold Sigaction.main at hmain
  cases hpc : p.mem.pc <;> simp only [hpc] at hmain
  case getPending => exact h.main_getPending hp hpc
  case loop =>
    by_cases hset : p.mem.gotSigint
    · rw [if_pos hset] at hmain
      exact ⟨hmain ▸ h.caught, hmain ▸ h.pending, fun _ => hmain ▸ hset⟩
    · rw [if_neg hset] at hmain
      exact ⟨hmain ▸ h.caught, hmain ▸ h.pending, hmain ▸ h.got⟩
  case print n =>
    by_cases hn : n < nsig
    · exact h.main_print hp hframes hpc hn
    · rw [if_neg hn] at hmain
      exact ⟨hmain ▸ h.caught, hmain ▸ h.pending, fun _ => hmain ▸ h.got (by rw [hpc]; rfl)⟩
  all_goals
    refine h.congr ?_ ?_ ?_ (fun _ => le_rfl) fun _ => le_rfl
    all_goals simp [hmain, hpc, MainPC.printing]

theorem lines_of_reachable (h : (system args).Reachable p) : Lines p := by
  have hstart : Lines (Program.start catchable (.initial args)) := by
    refine ⟨fun n c hc => absurd hc List.not_mem_nil, fun n hn => absurd hn List.not_mem_nil, ?_⟩
    cases args <;> exact fun hprinting => absurd hprinting Bool.false_ne_true
  refine Program.invariant Lines hstart ?_ h
  intro p q hp _ _ hinv hstep
  rcases main_or_quiet hstep with ⟨hframes, rfl⟩ | ⟨houtput, hpc, hgot⟩
  · exact hinv.main hp hframes
  · exact hinv.congr houtput (by rw [hpc]) hgot hstep.delivered_le hstep.generated_le

/-- The signal whose count is printed next. -/
def MainPC.next : MainPC → ℕ
  | .print n => n
  | .exited => nsig
  | _ => 0

theorem ofNat_ne_zero {m : ℕ} (hpos : 0 < m) (hlt : m < 2 ^ 31) : Int32.ofNat m ≠ 0 := by
  intro hzero
  have hint := congrArg Int32.toInt hzero
  rw [Int32.toInt_ofNat_of_lt hlt, Int32.toInt_zero] at hint
  omega

/-- What was delivered up to `s` has been printed as far as the loop has come. -/
structure Printed (s t : Proc ℕ PC Mem) : Prop where
  delivered : ∀ n, s.delivered n ≤ t.delivered n
  lines : ∀ n, 0 < n → n < t.mem.pc.next → n ≠ sigint → 0 < s.delivered n →
    t.delivered n < 2 ^ 31 →
      ∃ m, .caught n (.ofNat m) ∈ t.mem.output ∧ s.delivered n ≤ m ∧ m ≤ t.delivered n

theorem Printed.congr (h : Printed s p) (houtput : q.mem.output = p.mem.output)
    (hpc : q.mem.pc.next ≤ p.mem.pc.next) (hdelivered : ∀ n, p.delivered n ≤ q.delivered n) :
    Printed s q := by
  refine ⟨fun n => (h.delivered n).trans (hdelivered n), fun n hpos hlt hn hs hbound => ?_⟩
  rw [houtput]
  obtain ⟨m, hm, hle, hmax⟩ :=
    h.lines n hpos (hlt.trans_le hpc) hn hs ((hdelivered n).trans_lt hbound)
  exact ⟨m, hm, hle, hmax.trans (hdelivered n)⟩

theorem Printed.main (h : Printed s p) (hp : (system args).Reachable p) (hframes : p.frames = []) :
    Printed s (program.runMain p) := by
  have hmain : (program.runMain p).mem = (Sigaction.main p.pending p.blocked p.mem).2 := rfl
  unfold Sigaction.main at hmain
  cases hpc : p.mem.pc <;> simp only [hpc] at hmain
  case loop =>
    refine ⟨h.delivered, fun n hpos hlt _ _ _ => ?_⟩
    rw [hmain] at hlt
    split_ifs at hlt
    · exact absurd hlt (Nat.not_lt.mpr hpos)
    · rw [hpc] at hlt
      exact absurd hlt (Nat.not_lt_zero n)
  case print k =>
    by_cases hk : k < nsig
    · refine ⟨h.delivered, fun n hpos hlt hn hs hbound => ?_⟩
      rw [runMain_print hpc hk] at hlt ⊢
      rcases Nat.lt_succ_iff_lt_or_eq.mp hlt with hlt | rfl
      · obtain ⟨m, hm, hle⟩ := h.lines n hpos (by rwa [hpc]) hn hs hbound
        exact ⟨m, List.mem_append_left _ hm, hle⟩
      · have hle := h.delivered n
        have hcount := sigCnt_eq hp hframes hn
        have hne : p.mem.sigCnt n ≠ 0 := by
          rw [hcount]
          exact ofNat_ne_zero (hs.trans_le hle) hbound
        refine ⟨p.delivered n, List.mem_append_right _ ?_, hle, le_rfl⟩
        rw [if_pos hne, hcount]
        exact List.mem_cons_self
    · rw [if_neg hk] at hmain
      refine h.congr (by rw [hmain]) ?_ fun _ => le_rfl
      rw [hmain, hpc]
      exact Nat.not_lt.mp hk
  case getPending =>
    refine ⟨h.delivered, fun n hpos hlt _ _ _ => ?_⟩
    rw [hmain] at hlt
    exact absurd hlt (Nat.not_lt_zero n)
  all_goals
    refine h.congr ?_ ?_ fun _ => le_rfl
    all_goals simp [hmain, hpc, MainPC.next]

theorem printed_of_run (h : (system args).Reachable s) (hs : s.mem.pc = .loop)
    (hrun : Relation.ReflTransGen (system args).step s t) :
    (system args).Reachable t ∧ Printed s t := by
  induction hrun with
  | refl =>
      refine ⟨h, fun _ => le_rfl, fun n _ hlt _ _ _ => ?_⟩
      rw [hs] at hlt
      exact absurd hlt (Nat.not_lt_zero n)
  | tail _ hst ih =>
      obtain ⟨hp, hprinted⟩ := ih
      refine ⟨hp.next hst, ?_⟩
      obtain ⟨l, hsent, hl⟩ := hst
      obtain ⟨-, -, hstep⟩ := Program.Step.of_step hsent hl
      rcases main_or_quiet hstep with ⟨hframes, rfl⟩ | ⟨houtput, hpc, -⟩
      · exact hprinted.main hp hframes
      · exact hprinted.congr houtput (by rw [hpc]) hstep.delivered_le

end Output

/-- When the program exits, `SIGINT` was delivered, and every other signal that was delivered while
`main` was in its loop is reported with all its deliveries up to then, if no count overflowed. No
line reports more than was delivered. What was reported as pending is not lost, unless `SIGCONT` or
a stop signal was sent that discards it. -/
theorem output_of_exited {args : Bool} {s t : Proc ℕ PC Mem} (h : (system args).Reachable s)
    (hs : s.mem.pc = .loop) (hrun : Relation.ReflTransGen (system args).step s t)
    (ht : t.mem.pc = .exited) (hbound : ∀ n < nsig, t.delivered n < 2 ^ 31) :
    0 < t.delivered sigint ∧
      (∀ n, n ∈ Set.Ico 1 nsig → n ≠ sigint → 0 < s.delivered n →
        ∃ c : Int32, .caught n c ∈ t.mem.output ∧ s.delivered n ≤ c.toInt) ∧
      (∀ n (c : Int32), .caught n c ∈ t.mem.output →
        n ≠ sigint ∧ 0 < c.toInt ∧ c.toInt ≤ t.delivered n) ∧
      ∀ n, .pending n ∈ t.mem.output →
        0 < t.delivered n + t.pending n ∨ ∃ k, discards k n ∧ 0 < t.generated k := by
  obtain ⟨htreach, hprinted⟩ := printed_of_run h hs hrun
  have hlines := lines_of_reachable htreach
  have hint : ∀ {n m : ℕ}, n < nsig → m ≤ t.delivered n → (Int32.ofNat m).toInt = m :=
    fun hn hm => Int32.toInt_ofNat_of_lt (hm.trans_lt (hbound _ hn))
  refine ⟨?_, fun n hn hne hpos => ?_, fun n c hc => ?_, fun n hn => ?_⟩
  · exact (got_of_reachable htreach).pos (hlines.got (by rw [ht]; rfl))
  · obtain ⟨m, hm, hle, hmax⟩ :=
      hprinted.lines n hn.1 (by rw [ht]; exact hn.2) hne hpos (hbound n hn.2)
    refine ⟨_, hm, ?_⟩
    rw [hint hn.2 hmax]
    exact Int.ofNat_le.mpr hle
  · obtain ⟨hlt, hne, hzero, m, hle, rfl⟩ := hlines.caught n c hc
    have hm : m ≠ 0 := by
      rintro rfl
      exact hzero rfl
    rw [hint hlt hle]
    exact ⟨hne, by omega, by omega⟩
  · have hacc := accounted_of_reachable htreach n
    have hpos := hacc.pos (hlines.pending n hn)
    by_cases hkept : t.discarded n = 0
    · exact .inl (by omega)
    · exact .inr (hacc.cause (Nat.pos_of_ne_zero hkept))

set_option maxRecDepth 2000 in
/-- `SIGUSR1` is caught once, and then `SIGINT`. -/
theorem output_of_exited_once :
    ∃ t, Relation.ReflTransGen (system false).step (Program.start catchable (.initial false)) t ∧
      t.mem.pc = .exited ∧ .caught 10 1 ∈ t.mem.output ∧ 0 < t.delivered sigint ∧
      ∀ n (c : Int32), .caught n c ∈ t.mem.output →
        n ≠ sigint ∧ 0 < c.toInt ∧ c.toInt ≤ t.delivered n := by
  have hrun : Relation.ReflTransGen (system false).step
      (Program.start catchable (.initial false)) _ :=
    Program.run_of_schedule
      ([.generate 10, .deliver 10, .handler, .handler, .handler, .handler, .generate 2, .deliver 2,
        .handler, .handler] ++ List.replicate 66 .main) (by simp [catchable, nsig]) rfl
  obtain ⟨hgot, -, hlines, -⟩ := output_of_exited (.start rfl) rfl hrun rfl (by decide)
  exact ⟨_, hrun, rfl, by decide, hgot, hlines⟩

end TlpiExercises.Sigaction
