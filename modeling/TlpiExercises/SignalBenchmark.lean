import TlpiExercises.Transition

/-!
# Two processes that signal each other

After `fork` the child repeats "send, wait" and the parent "wait, send", each
`numSigs` times. `TESTSIG` is a standard signal: one pending bit per process, set
by `kill` and blocked outside the waits. The two programs differ in how they wait:
`sigsuspend` unblocks the signal, lets the handler run and blocks it again;
`sigwaitinfo` takes the pending signal and the loop counts it.
-/
namespace TlpiExercises.SignalBenchmark

/-- `sigsuspend.c` or `sigwaitinfo.c`. -/
inductive Program where
  | sigsuspend
  | sigwaitinfo
  deriving DecidableEq, Repr

inductive Role where
  | child
  | parent
  deriving DecidableEq, Repr

def Role.other : Role → Role
  | .child => .parent
  | .parent => .child

/-- What a process does next: the loop test, the two calls of the body and their
parts, or nothing more once its loop has ended. -/
inductive PC where
  | test
  | kill
  | wait
  | suspended
  | handler
  | restore
  | gotSignal
  | left
  deriving DecidableEq, Repr

/-- One process. `sent` and `received` count the signals it sent and those that
were delivered to it or taken by it; the program itself has only `cnt`. -/
structure Proc where
  pc : PC
  scnt : ℕ
  cnt : ℕ
  pending : Bool
  sent : ℕ
  received : ℕ
  deriving DecidableEq, Repr

abbrev State := Role → Proc

/-- Right after `fork`. -/
def State.initial : State := fun _ => ⟨.test, 0, 0, false, 0, 0⟩

/-- The first call of the loop body. -/
def Role.first : Role → PC
  | .child => .kill
  | .parent => .wait

/-- The end of the loop body, with `scnt++`. -/
def Proc.nextRound (p : Proc) : Proc := { p with pc := .test, scnt := p.scnt + 1 }

/-- What follows `kill`: the child waits, the parent's body ends. -/
def Role.afterKill (r : Role) (p : Proc) : Proc :=
  match r with
  | .child => { p with pc := .wait }
  | .parent => p.nextRound

/-- What follows the wait: the child's body ends, the parent sends. -/
def Role.afterWait (r : Role) (p : Proc) : Proc :=
  match r with
  | .child => p.nextRound
  | .parent => { p with pc := .kill }

/-- The signal is no longer pending. -/
def Proc.take (p : Proc) (pc : PC) : Proc :=
  { p with pc := pc, pending := false, received := p.received + 1 }

/-- The next step of one process, if it can take one. A process blocks in its wait
until its signal is pending; a `kill` of a process that is gone is not covered. -/
def advance (prog : Program) (numSigs : ℕ) (r : Role) (s : State) : Option State :=
  let p := s r
  match p.pc with
  | .test => some (Function.update s r { p with pc := if p.scnt < numSigs then r.first else .left })
  | .kill =>
      if (s r.other).pc = .left then none
      else
        let s := Function.update s r.other { s r.other with pending := true }
        some (Function.update s r (r.afterKill { p with sent := p.sent + 1 }))
  | .wait =>
      match prog with
      | .sigsuspend => some (Function.update s r { p with pc := .suspended })
      | .sigwaitinfo => if p.pending then some (Function.update s r (p.take .gotSignal)) else none
  | .suspended => if p.pending then some (Function.update s r (p.take .handler)) else none
  | .handler => some (Function.update s r { p with pc := .restore, cnt := p.cnt + 1 })
  | .restore => some (Function.update s r (r.afterWait p))
  | .gotSignal => some (Function.update s r (r.afterWait { p with cnt := p.cnt + 1 }))
  | .left => none

/-- All interleavings of the two processes. -/
def system (prog : Program) (numSigs : ℕ) : System State :=
  .ofNext (· = .initial) (advance prog numSigs)

/-- Signals sent in the current round. -/
def sentInRound : Role → PC → ℕ
  | .child, .wait | .child, .suspended | .child, .handler | .child, .restore
  | .child, .gotSignal => 1
  | _, _ => 0

/-- Signals received in the current round. -/
def receivedInRound : Role → PC → ℕ
  | .parent, .kill => 1
  | _, .handler | _, .restore | _, .gotSignal => 1
  | _, _ => 0

/-- Signals received and not counted yet. -/
def uncounted : PC → ℕ
  | .handler | .gotSignal => 1
  | _ => 0

/-- What holds of each process by itself. -/
structure Local (numSigs : ℕ) (r : Role) (p : Proc) : Prop where
  sent : p.sent = p.scnt + sentInRound r p.pc
  received : p.received = p.scnt + receivedInRound r p.pc
  counted : p.cnt + uncounted p.pc = p.received
  looping : p.pc ≠ .test → p.pc ≠ .left → p.scnt < numSigs
  left : p.pc = .left → p.scnt = numSigs
  bound : p.scnt ≤ numSigs

/-- Every signal sent has been received or is pending. -/
structure Inv (numSigs : ℕ) (s : State) : Prop where
  proc : ∀ r, Local numSigs r (s r)
  flight : ∀ r, (s r).received + (s r).pending.toNat = (s r.other).sent

theorem inv_initial (numSigs : ℕ) : Inv numSigs .initial where
  proc r := by
    cases r <;> constructor <;> simp [State.initial, sentInRound, receivedInRound, uncounted]
  flight r := rfl

@[simp] theorem other_ne (r : Role) : r.other ≠ r := by
  cases r <;> simp [Role.other]

@[simp] theorem other_other (r : Role) : r.other.other = r := by
  cases r <;> rfl

theorem eq_other_of_ne {u r : Role} (h : u ≠ r) : u = r.other := by
  cases u <;> cases r <;> simp_all [Role.other]

variable {numSigs : ℕ} {r : Role} {p : Proc} {s : State}

/-- A process that enters its loop body or leaves the loop. -/
theorem Local.test (h : Local numSigs r p) (hpc : p.pc = .test) :
    Local numSigs r { p with pc := if p.scnt < numSigs then r.first else .left } := by
  obtain ⟨hsent, hreceived, hcounted, -, -, hbound⟩ := h
  rw [hpc] at hsent hreceived hcounted
  by_cases hlt : p.scnt < numSigs
  · rw [if_pos hlt]
    cases r <;> exact ⟨hsent, hreceived, hcounted, fun _ _ => hlt, by simp [Role.first], hbound⟩
  · rw [if_neg hlt]
    cases r <;> exact ⟨hsent, hreceived, hcounted, by simp, fun _ => by simp only; omega, hbound⟩

theorem Local.kill (h : Local numSigs r p) (hpc : p.pc = .kill) :
    Local numSigs r (r.afterKill { p with sent := p.sent + 1 }) := by
  have hlt := h.looping (by simp [hpc]) (by simp [hpc])
  obtain ⟨hsent, hreceived, hcounted, -, -, hbound⟩ := h
  rw [hpc] at hsent hreceived hcounted
  cases r with
  | child => exact ⟨by simp [Role.afterKill, sentInRound, hsent], hreceived, hcounted, fun _ _ => hlt,
      by simp [Role.afterKill], hbound⟩
  | parent => exact ⟨by simp [Role.afterKill, sentInRound, hsent, Proc.nextRound], hreceived, hcounted,
      by simp [Role.afterKill, Proc.nextRound], by simp [Role.afterKill, Proc.nextRound], hlt⟩

theorem Local.suspend (h : Local numSigs r p) (hpc : p.pc = .wait) :
    Local numSigs r { p with pc := .suspended } := by
  have hlt := h.looping (by simp [hpc]) (by simp [hpc])
  obtain ⟨hsent, hreceived, hcounted, -, -, hbound⟩ := h
  rw [hpc] at hsent hreceived hcounted
  cases r <;> exact ⟨hsent, hreceived, hcounted, fun _ _ => hlt, by simp, hbound⟩

/-- A waiting process gets its signal. -/
theorem Local.take (h : Local numSigs r p) (hpc : p.pc = .wait ∨ p.pc = .suspended) {q : PC}
    (hq : q = .handler ∨ q = .gotSignal) : Local numSigs r (p.take q) := by
  have hlt : p.scnt < numSigs := h.looping (by grind) (by grind)
  obtain ⟨hsent, hreceived, hcounted, -, -, hbound⟩ := h
  have hbits : sentInRound r p.pc = sentInRound r q ∧ receivedInRound r p.pc = 0 ∧
      receivedInRound r q = 1 ∧ uncounted p.pc = 0 ∧ uncounted q = 1 ∧ q ≠ .left := by
    rcases hpc with hpc | hpc <;> rcases hq with rfl | rfl <;> rw [hpc] <;> cases r <;> decide
  obtain ⟨hsame, hzero, hone, hzero', hone', hleft⟩ := hbits
  refine ⟨hsame ▸ hsent, ?_, ?_, fun _ _ => hlt, fun he => absurd he hleft, hbound⟩
  · simp only [Proc.take, hone]
    omega
  · simp only [Proc.take, hone']
    omega

/-- The signal is counted, by the handler or after `sigwaitinfo`. -/
theorem Local.count (h : Local numSigs r p) (hpc : p.pc = .handler ∨ p.pc = .gotSignal) :
    Local numSigs r { p with pc := .restore, cnt := p.cnt + 1 } := by
  have hlt : p.scnt < numSigs := h.looping (by grind) (by grind)
  obtain ⟨hsent, hreceived, hcounted, -, -, hbound⟩ := h
  rcases hpc with hpc | hpc <;> rw [hpc] at hsent hreceived hcounted <;> cases r <;>
    exact ⟨hsent, hreceived, hcounted, fun _ _ => hlt, by simp, hbound⟩

theorem Local.afterWait (h : Local numSigs r p) (hpc : p.pc = .restore) :
    Local numSigs r (r.afterWait p) := by
  have hlt := h.looping (by simp [hpc]) (by simp [hpc])
  obtain ⟨hsent, hreceived, hcounted, -, -, hbound⟩ := h
  rw [hpc] at hsent hreceived hcounted
  cases r with
  | child => exact ⟨hsent, hreceived, hcounted, by simp [Role.afterWait, Proc.nextRound],
      by simp [Role.afterWait, Proc.nextRound], hlt⟩
  | parent => exact ⟨hsent, hreceived, hcounted, fun _ _ => hlt, by simp [Role.afterWait], hbound⟩

/-- A step that sends nothing. -/
theorem Inv.own (h : Inv numSigs s) {q : Proc} (hproc : Local numSigs r q)
    (hsent : q.sent = (s r).sent)
    (hflight : q.received + q.pending.toNat = (s r).received + (s r).pending.toNat) :
    Inv numSigs (Function.update s r q) where
  proc u := by
    by_cases hu : u = r
    · subst hu
      rwa [Function.update_self]
    · rw [Function.update_of_ne hu]
      exact h.proc u
  flight u := by
    by_cases hu : u = r
    · subst hu
      rw [Function.update_self, Function.update_of_ne (other_ne u), hflight]
      exact h.flight u
    · obtain rfl := eq_other_of_ne hu
      rw [other_other, Function.update_self, Function.update_of_ne (other_ne r), hsent]
      have := h.flight r.other
      rwa [other_other] at this

theorem receivedInRound_child_le (pc : PC) :
    receivedInRound .child pc ≤ sentInRound .child pc ∧ sentInRound .child pc ≤ 1 := by
  cases pc <;> decide

theorem sentInRound_parent (pc : PC) :
    sentInRound .parent pc = 0 ∧ receivedInRound .parent pc ≤ 1 := by
  cases pc <;> decide

/-- Sends and receipts alternate around the two loops. -/
theorem Inv.alternate (h : Inv numSigs s) :
    (s .child).received ≤ (s .parent).sent ∧ (s .parent).sent ≤ (s .parent).received ∧
      (s .parent).received ≤ (s .child).sent ∧ (s .child).sent ≤ (s .child).received + 1 := by
  have hchild : (s .child).received + (s .child).pending.toNat = (s .parent).sent := h.flight .child
  have hparent : (s .parent).received + (s .parent).pending.toNat = (s .child).sent :=
    h.flight .parent
  have hcs := (h.proc .child).sent
  have hcr := (h.proc .child).received
  have hps := (h.proc .parent).sent
  have hpr := (h.proc .parent).received
  have hc := receivedInRound_child_le (s .child).pc
  have hp := sentInRound_parent (s .parent).pc
  refine ⟨?_, ?_, ?_, ?_⟩ <;> omega

/-- A process whose receipts match the other's sends has no signal pending. -/
theorem Inv.not_pending (h : Inv numSigs s) (heq : (s r).received = (s r.other).sent) :
    (s r).pending = false := by
  have hflight := h.flight r
  have hzero : (s r).pending.toNat = 0 := by omega
  cases hp : (s r).pending with
  | false => rfl
  | true => simp [hp] at hzero

/-- A process that is about to send finds no signal pending for the other one,
which is still in its loop. -/
theorem Inv.clear (h : Inv numSigs s) (hpc : (s r).pc = .kill) :
    (s r.other).pending = false ∧ (s r.other).pc ≠ .left := by
  obtain ⟨h₁, h₂, h₃, h₄⟩ := h.alternate
  have hlt := (h.proc r).looping (by simp [hpc]) (by simp [hpc])
  have hsent := (h.proc r).sent
  have hreceived := (h.proc r).received
  rw [hpc] at hsent hreceived
  have hleft := (h.proc r.other).left
  have hother := (h.proc r.other).received
  cases r with
  | child =>
      simp only [sentInRound, receivedInRound] at hsent hreceived
      refine ⟨h.not_pending (r := .parent) ?_, fun hgone => ?_⟩
      · simp only [Role.other]
        omega
      · have hscnt := hleft hgone
        simp only [Role.other] at hother hscnt
        omega
  | parent =>
      simp only [sentInRound, receivedInRound] at hsent hreceived
      refine ⟨h.not_pending (r := .child) ?_, fun hgone => ?_⟩
      · simp only [Role.other]
        omega
      · have hscnt := hleft hgone
        simp only [Role.other] at hother hscnt
        omega

@[simp] theorem afterKill_sent (r : Role) (p : Proc) : (r.afterKill p).sent = p.sent := by
  cases r <;> rfl

@[simp] theorem afterKill_received (r : Role) (p : Proc) :
    (r.afterKill p).received = p.received := by
  cases r <;> rfl

@[simp] theorem afterKill_pending (r : Role) (p : Proc) : (r.afterKill p).pending = p.pending := by
  cases r <;> rfl

@[simp] theorem afterWait_sent (r : Role) (p : Proc) : (r.afterWait p).sent = p.sent := by
  cases r <;> rfl

@[simp] theorem afterWait_received (r : Role) (p : Proc) :
    (r.afterWait p).received = p.received := by
  cases r <;> rfl

@[simp] theorem afterWait_pending (r : Role) (p : Proc) : (r.afterWait p).pending = p.pending := by
  cases r <;> rfl

/-- The step that sends. -/
theorem Inv.send (h : Inv numSigs s) (hpc : (s r).pc = .kill) :
    Inv numSigs (Function.update (Function.update s r.other { s r.other with pending := true }) r
      (r.afterKill { s r with sent := (s r).sent + 1 })) := by
  obtain ⟨hclear, -⟩ := h.clear hpc
  constructor
  · intro u
    by_cases hu : u = r
    · subst hu
      rw [Function.update_self]
      exact (h.proc u).kill hpc
    · obtain rfl := eq_other_of_ne hu
      rw [Function.update_of_ne hu, Function.update_self]
      obtain ⟨hsent, hreceived, hcounted, hlooping, hleft, hbound⟩ := h.proc r.other
      exact ⟨hsent, hreceived, hcounted, hlooping, hleft, hbound⟩
  · intro u
    by_cases hu : u = r
    · subst hu
      rw [Function.update_self, Function.update_of_ne (other_ne u), Function.update_self]
      simpa using h.flight u
    · obtain rfl := eq_other_of_ne hu
      have hflight := h.flight r.other
      rw [other_other, hclear] at hflight
      rw [other_other, Function.update_self, Function.update_of_ne hu, Function.update_self]
      simpa using hflight

/-- Every step of either process keeps the invariant. -/
theorem inv_step {prog : Program} (h : Inv numSigs s) {s' : State}
    (hstep : advance prog numSigs r s = some s') : Inv numSigs s' := by
  have hproc := h.proc r
  unfold advance at hstep
  cases hpc : (s r).pc <;> simp only [hpc] at hstep
  case test =>
    obtain rfl := Option.some.inj hstep
    exact h.own (hproc.test hpc) rfl rfl
  case kill =>
    split_ifs at hstep with hgone
    obtain rfl := Option.some.inj hstep
    exact h.send hpc
  case wait =>
    cases prog with
    | sigsuspend =>
        obtain rfl := Option.some.inj hstep
        exact h.own (hproc.suspend hpc) rfl rfl
    | sigwaitinfo =>
        split_ifs at hstep with hpending
        obtain rfl := Option.some.inj hstep
        exact h.own (hproc.take (.inl hpc) (.inr rfl)) rfl (by simp [Proc.take, hpending])
  case suspended =>
    split_ifs at hstep with hpending
    obtain rfl := Option.some.inj hstep
    exact h.own (hproc.take (.inr hpc) (.inl rfl)) rfl (by simp [Proc.take, hpending])
  case handler =>
    obtain rfl := Option.some.inj hstep
    exact h.own (hproc.count (.inl hpc)) rfl rfl
  case restore =>
    obtain rfl := Option.some.inj hstep
    exact h.own (hproc.afterWait hpc) (by simp) (by simp)
  case gotSignal =>
    obtain rfl := Option.some.inj hstep
    have hcounted := (hproc.count (.inr hpc)).afterWait rfl
    exact h.own (by cases r <;> exact hcounted) (by simp) (by simp)
  case left => contradiction

theorem inv_of_reachable {prog : Program} (h : (system prog numSigs).Reachable s) :
    Inv numSigs s :=
  System.invariant_of_next _ (inv_initial numSigs) (fun _ _ _ hinv hstep => inv_step hinv hstep) h

/-- Waiting for a signal that is not pending. -/
def Proc.Blocked (p : Proc) : Prop := (p.pc = .wait ∨ p.pc = .suspended) ∧ p.pending = false

/-- A process that cannot step has ended its loop or is blocked. -/
theorem Inv.stuck (h : Inv numSigs s) (prog : Program) (hstep : advance prog numSigs r s = none) :
    (s r).pc = .left ∨ (s r).Blocked := by
  unfold advance at hstep
  cases hpc : (s r).pc <;> simp only [hpc, reduceCtorEq] at hstep
  case kill =>
    split_ifs at hstep with hgone
    exact absurd hgone (h.clear hpc).2
  case wait =>
    cases prog with
    | sigsuspend => contradiction
    | sigwaitinfo =>
        split_ifs at hstep with hpending
        exact .inr ⟨.inl hpc, by simpa using hpending⟩
  case suspended =>
    split_ifs at hstep with hpending
    exact .inr ⟨.inr hpc, by simpa using hpending⟩
  case left => exact .inl rfl

/-- The counts of a process that has ended its loop. -/
theorem Local.of_left (h : Local numSigs r p) (hpc : p.pc = .left) :
    p.sent = numSigs ∧ p.received = numSigs ∧ p.cnt = numSigs := by
  have hscnt := h.left hpc
  have hsent := h.sent
  have hreceived := h.received
  have hcounted := h.counted
  have hbits : sentInRound r p.pc = 0 ∧ receivedInRound r p.pc = 0 ∧ uncounted p.pc = 0 := by
    rw [hpc]
    cases r <;> decide
  omega

/-- The counts of a process that is blocked: all it was sent is received. -/
theorem Inv.of_blocked (h : Inv numSigs s) (hblocked : (s r).Blocked) :
    (s r).sent = (s r).scnt + sentInRound r .wait ∧ (s r).received = (s r).scnt ∧
      (s r).received = (s r.other).sent ∧ (s r).scnt < numSigs := by
  obtain ⟨hpc, hpending⟩ := hblocked
  have hproc := h.proc r
  have hflight := h.flight r
  have hbits : sentInRound r (s r).pc = sentInRound r .wait ∧ receivedInRound r (s r).pc = 0 := by
    rcases hpc with hpc | hpc <;> rw [hpc] <;> cases r <;> decide
  have hlt : (s r).scnt < numSigs := hproc.looping (by grind) (by grind)
  rw [hpending] at hflight
  exact ⟨hbits.1 ▸ hproc.sent, by rw [hproc.received, hbits.2, Nat.add_zero], by simpa using hflight,
    hlt⟩

/-- As long as a loop has not ended, some process can step. -/
theorem Inv.progress (h : Inv numSigs s) (prog : Program) :
    (∃ r, (advance prog numSigs r s).isSome) ∨ ∀ r, (s r).pc = .left := by
  by_contra hnot
  obtain ⟨hnone, hleft⟩ := not_or.mp hnot
  have hstuck : ∀ r, (s r).pc = .left ∨ (s r).Blocked := by
    intro r
    refine h.stuck prog ?_
    simpa using not_exists.mp hnone r
  -- whoever is blocked has received all that the other process sent
  rcases hstuck .child with hc | hc <;> rcases hstuck .parent with hp | hp
  · exact hleft fun r => by cases r <;> assumption
  · obtain ⟨hsent, -, -⟩ := (h.proc .child).of_left hc
    obtain ⟨-, hreceived, hall, hlt⟩ := h.of_blocked hp
    simp only [Role.other] at hall
    omega
  · obtain ⟨hsent, -, -⟩ := (h.proc .parent).of_left hp
    obtain ⟨-, hreceived, hall, hlt⟩ := h.of_blocked hc
    simp only [Role.other] at hall
    omega
  · obtain ⟨hsent, hreceived, hall, -⟩ := h.of_blocked hc
    obtain ⟨hsent', hreceived', hall', -⟩ := h.of_blocked hp
    simp only [Role.other, sentInRound] at hsent hall hsent' hall'
    omega

/-- In both programs, for every interleaving: no signal is sent while one is
pending, nor to a process that has ended its loop; the parent has received as many
signals as the child or one more; the processes never block each other; and a
process that has ended its loop has counted `numSigs` signals. -/
theorem signals_alternate (prog : Program) (numSigs : ℕ) {s : State}
    (h : (system prog numSigs).Reachable s) :
    (∀ r, (s r).pc = .kill → (s r.other).pending = false ∧ (s r.other).pc ≠ .left) ∧
      ((s .parent).received = (s .child).received ∨
        (s .parent).received = (s .child).received + 1) ∧
      ((∃ r, (advance prog numSigs r s).isSome) ∨ ∀ r, (s r).pc = .left) ∧
      ∀ r, (s r).pc = .left → (s r).cnt = numSigs := by
  have hinv := inv_of_reachable h
  refine ⟨fun r hpc => hinv.clear hpc, ?_, hinv.progress prog, ?_⟩
  · have := hinv.alternate
    omega
  · intro r hpc
    exact ((hinv.proc r).of_left hpc).2.2

/-- One round of the `sigsuspend` program, with the child ahead of the parent. -/
theorem signals_alternate_one_round :
    ∃ s, (system .sigsuspend 1).Reachable s ∧ (s .child).pc = .left ∧ (s .parent).pc = .left ∧
      (s .child).cnt = 1 ∧ (s .parent).cnt = 1 := by
  have hreach := System.reachable_of_schedule
    (System.Reachable.start (M := system .sigsuspend 1) (rfl : State.initial = State.initial))
    [.child, .child, .child, .parent, .parent, .parent, .parent, .parent, .parent, .child, .child,
      .child, .child, .parent] rfl
  have hdone := (signals_alternate .sigsuspend 1 hreach).2.2.2
  exact ⟨_, hreach, rfl, rfl, hdone .child rfl, hdone .parent rfl⟩

end TlpiExercises.SignalBenchmark
