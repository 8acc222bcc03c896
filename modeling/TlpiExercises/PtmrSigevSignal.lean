import TlpiExercises.CText
import TlpiExercises.Transition

/-!
# POSIX timers that notify by a signal

`main` creates and sets one timer for each argument, then blocks `TIMER_SIG`, then takes
the signals with `sigwaitinfo`. No handler is established, so a `TIMER_SIG` that is not
blocked ends the process. A timer has at most one signal in the queue; expirations while
it is there count as overruns. The timers expire between any two steps of `main`.
-/
namespace TlpiExercises.PtmrSigevSignal
open CText

/-- `struct timespec`, with the values that `atoi` gives. -/
structure Timespec where
  sec : Int32
  nsec : Int32
  deriving DecidableEq, Repr

/-- `struct itimerspec`. -/
structure Itimerspec where
  value : Timespec
  interval : Timespec
  deriving DecidableEq, Repr

/-- `strchr` with a zero written where the character is: the string before it, and behind
it. -/
def cut (c : UInt8) (str : List UInt8) : List UInt8 × Option (List UInt8) :=
  (str.takeWhile (· ≠ c), (str.dropWhile (· ≠ c)).tail?)

/-- `sec[/nanosec]`. -/
def timespecFromStr (str : List UInt8) : Timespec :=
  let (sec, nsec) := cut 47 str
  ⟨atoi sec, (nsec.map atoi).getD 0⟩

def itimerspecFromStr (str : List UInt8) : Itimerspec :=
  let (value, interval) := cut 58 str
  ⟨timespecFromStr value, (interval.map timespecFromStr).getD ⟨0, 0⟩⟩

/-- What `timer_settime` accepts as a time. -/
def Timespec.Valid (t : Timespec) : Prop := 0 ≤ t.sec ∧ 0 ≤ t.nsec ∧ t.nsec < 1000000000

instance (t : Timespec) : Decidable t.Valid := inferInstanceAs (Decidable (_ ∧ _))

def Itimerspec.Valid (ts : Itimerspec) : Prop := ts.value.Valid ∧ ts.interval.Valid

instance (ts : Itimerspec) : Decidable ts.Valid := inferInstanceAs (Decidable (_ ∧ _))

/-- A timer set to a value other than zero is armed. -/
def Itimerspec.arms (ts : Itimerspec) : Bool := ts.value ≠ ⟨0, 0⟩

structure Timer where
  armed : Bool
  periodic : Bool
  deriving DecidableEq, Repr

/-- What `main` does next: the call that is made, with the arguments that are left. -/
inductive PC where
  | start
  | timerCreate (args : List (List UInt8))
  | timerSettime (ts : Itimerspec) (args : List (List UInt8))
  | sigprocmask
  | sigwaitinfo
  | exited
  | killed
  deriving DecidableEq, Repr

/-- The process, its timers that have been set, the timers whose signal is queued with
their overruns, the signals taken with the overruns reported, and how often each timer
has expired. -/
structure State where
  pc : PC
  blocked : Bool
  timers : List Timer
  queue : List ℕ
  overrun : ℕ → ℕ
  taken : List (ℕ × ℕ)
  expirations : ℕ → ℕ

/-- The process starts; `TIMER_SIG` may be blocked in the mask it inherits. -/
def State.initial (blocked : Bool) : State where
  pc := .start
  blocked := blocked
  timers := []
  queue := []
  overrun _ := 0
  taken := []
  expirations _ := 0

/-- The next step of `main`; `ok` says whether a call succeeds that may fail. -/
def main (args : List (List UInt8)) (ok : Bool) (s : State) : Option State :=
  match s.pc with
  | .start =>
      some { s with pc := if args = [] ∨ ok = false then .exited else .timerCreate args }
  | .timerCreate [] => some { s with pc := .sigprocmask }
  | .timerCreate (arg :: rest) =>
      some { s with pc := if ok then .timerSettime (itimerspecFromStr arg) rest else .exited }
  | .timerSettime ts rest =>
      if ok ∧ ts.Valid then
        some { s with
          pc := .timerCreate rest
          timers := s.timers ++ [⟨ts.arms, ts.interval ≠ ⟨0, 0⟩⟩] }
      else some { s with pc := .exited }
  | .sigprocmask => some { s with pc := .sigwaitinfo, blocked := true }
  | .sigwaitinfo =>
      if ok then
        match s.queue with
        | [] => none
        | k :: queue => some { s with queue := queue, taken := s.taken ++ [(k, s.overrun k)] }
      else some { s with pc := .exited }
  | .exited | .killed => none

/-- Timer `k` expires, if it is armed. -/
def expire (k : ℕ) (s : State) : Option State :=
  match s.timers[k]? with
  | none => none
  | some timer =>
      if timer.armed = false ∨ s.pc = .exited ∨ s.pc = .killed then none
      else
        let s := { s with
          timers := s.timers.set k { timer with armed := timer.periodic }
          expirations := Function.update s.expirations k (s.expirations k + 1) }
        if s.blocked = false then some { s with pc := .killed }
        else if k ∈ s.queue then
          some { s with overrun := Function.update s.overrun k (s.overrun k + 1) }
        else some { s with
          queue := s.queue ++ [k]
          overrun := Function.update s.overrun k 0 }

inductive Op where
  | main (ok : Bool)
  | expire (k : ℕ)
  deriving DecidableEq, Repr

def step (args : List (List UInt8)) : Op → State → Option State
  | .main ok, s => main args ok s
  | .expire k, s => expire k s

/-- All interleavings of `main` with expirations. -/
def runs (args : List (List UInt8)) (blocked : Bool) : System State :=
  .ofNext (· = .initial blocked) (step args)

/-- No timer expires while `TIMER_SIG` is not blocked. -/
def Late : Op → State → Prop
  | .main _, _ => True
  | .expire _, s => s.blocked

instance : (op : Op) → (s : State) → Decidable (Late op s)
  | .main _, _ => .isTrue trivial
  | .expire _, s => inferInstanceAs (Decidable (s.blocked = true))

/-- The runs in which the timers expire only after the signal has been blocked. -/
def lateRuns (args : List (List UInt8)) (blocked : Bool) : System State :=
  .ofNextWhen (· = .initial blocked) (step args) Late

/-- The expirations of timer `k` that were reported: each signal stands for one and its
overruns. -/
def State.reported (s : State) (k : ℕ) : ℕ :=
  ((s.taken.filter fun r => r.1 = k).map fun r => r.2 + 1).sum

/-- The expirations of timer `k` that are pending. -/
def State.pending (s : State) (k : ℕ) : ℕ := if k ∈ s.queue then s.overrun k + 1 else 0

/-- No signal was delivered with its default action, and every expiration is pending until
`sigwaitinfo` takes it. -/
structure Kept (s : State) : Prop where
  alive : s.pc ≠ .killed
  once : s.queue.Nodup
  counted : ∀ k, s.expirations k = s.reported k + s.pending k

/-- The process has an armed timer. -/
def State.Armed (s : State) : Prop := s.pc ≠ .exited ∧ ∃ timer ∈ s.timers, timer.armed

/-- Nothing is lost, and while a timer is armed the signal is blocked. -/
structure Safe (s : State) : Prop extends Kept s where
  blocked : s.Armed → s.blocked

/-- `timer_settime` accepts the times of this argument. -/
def accepted (arg : List UInt8) : Bool := (itimerspecFromStr arg).Valid

/-- None of the arguments up to the first that is not accepted arms a timer. -/
def ArmNothing (args : List (List UInt8)) : Prop :=
  ∀ arg ∈ args.takeWhile accepted, (itimerspecFromStr arg).arms = false

section Runs

variable {args : List (List UInt8)} {blocked : Bool} {s t : State}

/-- The steps of `main` that only go on elsewhere. -/
inductive PC.Moves (args : List (List UInt8)) : PC → PC → Prop
  | begins : PC.Moves args .start (.timerCreate args)
  | created (arg : List UInt8) (rest : List (List UInt8)) :
      PC.Moves args (.timerCreate (arg :: rest)) (.timerSettime (itimerspecFromStr arg) rest)
  | allSet : PC.Moves args (.timerCreate []) .sigprocmask
  | exits (pc : PC) : PC.Moves args pc .exited

/-- What a step of `main` can do. -/
theorem main_cases {ok : Bool} (h : main args ok s = some t) :
    (∃ pc, PC.Moves args s.pc pc ∧ t = { s with pc := pc }) ∨
    (∃ ts rest, s.pc = .timerSettime ts rest ∧ ts.Valid ∧ t = { s with
      pc := .timerCreate rest
      timers := s.timers ++ [⟨ts.arms, ts.interval ≠ ⟨0, 0⟩⟩] }) ∨
    t = { s with pc := .sigwaitinfo, blocked := true } ∨
    ∃ k queue, s.pc = .sigwaitinfo ∧ s.queue = k :: queue ∧
      t = { s with queue := queue, taken := s.taken ++ [(k, s.overrun k)] } := by
  unfold main at h
  split at h
  case h_1 hpc =>
    cases h
    refine .inl ⟨_, ?_, rfl⟩
    split_ifs
    · exact .exits _
    · exact hpc ▸ .begins
  case h_2 hpc =>
    cases h
    exact .inl ⟨_, hpc ▸ .allSet, rfl⟩
  case h_3 arg rest hpc =>
    cases h
    refine .inl ⟨_, ?_, rfl⟩
    split_ifs
    · exact hpc ▸ .created arg rest
    · exact .exits _
  case h_4 ts rest hpc =>
    split_ifs at h with hok
    · cases h
      exact .inr (.inl ⟨ts, rest, hpc, hok.2, rfl⟩)
    · cases h
      exact .inl ⟨_, .exits _, rfl⟩
  case h_5 =>
    cases h
    exact .inr (.inr (.inl rfl))
  case h_6 hpc =>
    split_ifs at h
    · split at h
      case h_1 => cases h
      case h_2 k queue hqueue =>
        cases h
        exact .inr (.inr (.inr ⟨k, queue, hpc, hqueue, rfl⟩))
    · cases h
      exact .inl ⟨_, .exits _, rfl⟩
  case h_7 => cases h
  case h_8 => cases h

/-- What an expiration does. -/
theorem expire_cases {k : ℕ} (h : expire k s = some t) :
    s.Armed ∧ t.taken = s.taken ∧ t.blocked = s.blocked ∧
      t.expirations = Function.update s.expirations k (s.expirations k + 1) ∧
      (s.blocked = false ∨
        t.pc = s.pc ∧ (k ∈ s.queue ∧ t.queue = s.queue ∧
            t.overrun = Function.update s.overrun k (s.overrun k + 1) ∨
          k ∉ s.queue ∧ t.queue = s.queue ++ [k] ∧
            t.overrun = Function.update s.overrun k 0)) := by
  unfold expire at h
  split at h
  case h_1 => cases h
  case h_2 timer htimer =>
    dsimp only at h
    split_ifs at h with hstop hblocked hqueue
    all_goals
      push Not at hstop
      have harmed : s.Armed :=
        ⟨hstop.2.1, timer, List.mem_of_getElem? htimer, by simpa using hstop.1⟩
      cases h
    · exact ⟨harmed, rfl, rfl, rfl, .inl hblocked⟩
    · exact ⟨harmed, rfl, rfl, rfl, .inr ⟨rfl, .inl ⟨hqueue, rfl, rfl⟩⟩⟩
    · exact ⟨harmed, rfl, rfl, rfl, .inr ⟨rfl, .inr ⟨hqueue, rfl, rfl⟩⟩⟩

theorem kept_initial (blocked : Bool) : Kept (.initial blocked) :=
  ⟨by simp [State.initial], by simp [State.initial],
    by simp [State.initial, State.reported, State.pending]⟩

theorem PC.Moves.ne_killed {pc pc' : PC} (h : PC.Moves args pc pc') : pc' ≠ .killed := by
  cases h <;> simp

/-- A step that neither takes a signal nor adds one. -/
theorem Kept.goto (h : Kept s) (pc : PC) (b : Bool) (timers : List Timer) (hpc : pc ≠ .killed) :
    Kept { s with pc := pc, blocked := b, timers := timers } :=
  ⟨hpc, h.once, h.counted⟩

/-- `sigwaitinfo` reports what was pending for its timer. -/
theorem Kept.take (h : Kept s) {k : ℕ} {queue : List ℕ} (hqueue : s.queue = k :: queue) :
    Kept { s with queue := queue, taken := s.taken ++ [(k, s.overrun k)] } := by
  have honce := h.once
  rw [hqueue, List.nodup_cons] at honce
  refine ⟨h.alive, honce.2, fun j => ?_⟩
  have hj := h.counted j
  simp only [State.reported, State.pending, hqueue, List.mem_cons] at hj
  simp only [State.reported, State.pending, List.filter_append, List.map_append, List.sum_append]
  by_cases hjk : j = k
  · subst hjk
    simp [hj, honce.1]
  · simp [hj, hjk, Ne.symm hjk]

theorem Kept.main {ok : Bool} (h : Kept s) (hstep : main args ok s = some t) : Kept t := by
  obtain ⟨pc, hmoves, rfl⟩ | ⟨ts, rest, -, -, rfl⟩ | rfl | ⟨k, queue, -, hqueue, rfl⟩ :=
    main_cases hstep
  · exact h.goto pc s.blocked s.timers hmoves.ne_killed
  · exact h.goto (.timerCreate rest) s.blocked _ (by simp)
  · exact h.goto .sigwaitinfo true s.timers (by simp)
  · exact h.take hqueue

theorem Kept.expire {k : ℕ} (h : Kept s) (hblocked : s.blocked) (hstep : expire k s = some t) :
    Kept t := by
  obtain ⟨-, htaken, -, hexp, hfalse | ⟨hpc, ⟨hk, hqueue, hover⟩ | ⟨hk, hqueue, hover⟩⟩⟩ :=
    expire_cases hstep
  · simp [hblocked] at hfalse
  all_goals
    refine ⟨hpc ▸ h.alive, ?_, fun j => ?_⟩
  · exact hqueue ▸ h.once
  · have hj := h.counted j
    simp only [State.reported, State.pending] at hj
    simp only [State.reported, State.pending, htaken, hexp, hqueue, hover]
    by_cases hjk : j = k
    · subst hjk
      simp only [Function.update_self, if_pos hk] at hj ⊢
      omega
    · simpa only [Function.update_of_ne hjk] using hj
  · rw [hqueue, ← List.concat_eq_append]
    exact List.Nodup.concat hk h.once
  · have hj := h.counted j
    simp only [State.reported, State.pending] at hj
    simp only [State.reported, State.pending, htaken, hexp, hqueue, hover, List.mem_append,
      List.mem_singleton]
    by_cases hjk : j = k
    · subst hjk
      simp [hj, hk]
    · simpa only [Function.update_of_ne hjk, hjk, or_false] using hj

/-- Nothing is lost in a step that is no expiration of an unblocked signal. -/
theorem Kept.step {op : Op} (h : Kept s) (hlate : Late op s) (hstep : step args op s = some t) :
    Kept t := by
  cases op with
  | main ok => exact h.main hstep
  | expire k => exact h.expire hlate hstep

/-- If no timer expires too early, no expiration is lost. -/
theorem kept_of_late (h : (lateRuns args blocked).Reachable s) : Kept s :=
  System.invariant_of_nextWhen Kept (kept_initial blocked)
    (fun _ _ _ hu hlate hstep => hu.step hlate hstep) h

/-- From here on `main` arms no timer before it blocks the signal. -/
def PC.ArmsNothing (args : List (List UInt8)) : PC → Prop
  | .start => ArmNothing args
  | .timerCreate rest => ArmNothing rest
  | .timerSettime ts rest => ts.Valid → ts.arms = false ∧ ArmNothing rest
  | _ => True

/-- While the signal is not blocked, no timer is armed and none will be. -/
def Quiet (args : List (List UInt8)) (s : State) : Prop :=
  s.blocked = false → s.pc.ArmsNothing args ∧ ∀ timer ∈ s.timers, timer.armed = false

theorem ArmNothing.cons {arg : List UInt8} {rest : List (List UInt8)}
    (h : ArmNothing (arg :: rest)) (hvalid : (itimerspecFromStr arg).Valid) :
    (itimerspecFromStr arg).arms = false ∧ ArmNothing rest := by
  have hacc : accepted arg := by simpa [accepted] using hvalid
  rw [ArmNothing, List.takeWhile_cons_of_pos hacc, List.forall_mem_cons] at h
  exact h

theorem PC.Moves.armsNothing {pc pc' : PC} (h : PC.Moves args pc pc')
    (harm : pc.ArmsNothing args) : pc'.ArmsNothing args := by
  cases h with
  | begins => exact harm
  | created arg rest => exact fun hvalid => ArmNothing.cons harm hvalid
  | allSet => trivial
  | exits pc => trivial

theorem Quiet.main {ok : Bool} (h : Quiet args s) (hstep : main args ok s = some t) :
    Quiet args t := by
  obtain ⟨pc, hmoves, rfl⟩ | ⟨ts, rest, hpc, hvalid, rfl⟩ | rfl | ⟨k, queue, hpc, -, rfl⟩ :=
    main_cases hstep
  · exact fun hb => ⟨hmoves.armsNothing (h hb).1, (h hb).2⟩
  · intro hb
    obtain ⟨harm, htimers⟩ := h hb
    rw [hpc] at harm
    obtain ⟨hts, hrest⟩ := harm hvalid
    refine ⟨hrest, List.forall_mem_append.mpr ⟨htimers, ?_⟩⟩
    simpa using hts
  · exact fun hb => absurd hb (by simp)
  · exact fun hb => ⟨(h hb).1, (h hb).2⟩

theorem Quiet.blocked_of_armed (h : Quiet args s) (harmed : s.Armed) : s.blocked := by
  obtain ⟨-, timer, hmem, harm⟩ := harmed
  by_contra hb
  have hoff := (h (by simpa using hb)).2 timer hmem
  simp [hoff] at harm

theorem Quiet.step {op : Op} (h : Quiet args s) (hstep : step args op s = some t) :
    Late op s ∧ Quiet args t := by
  cases op with
  | main ok => exact ⟨trivial, h.main hstep⟩
  | expire k =>
      obtain ⟨harmed, -, hsame, -⟩ := expire_cases hstep
      have hb := h.blocked_of_armed harmed
      refine ⟨hb, fun hfalse => ?_⟩
      rw [hsame, hb] at hfalse
      cases hfalse

theorem safe_of_armNothing (h : blocked ∨ ArmNothing args)
    (hs : (runs args blocked).Reachable s) : Safe s := by
  have hinv : Kept s ∧ Quiet args s := by
    refine System.invariant_of_next (fun s => Kept s ∧ Quiet args s) ?_ ?_ hs
    · refine ⟨kept_initial blocked, fun hb => ⟨?_, by simp [State.initial]⟩⟩
      exact h.resolve_left (by simpa [State.initial] using hb)
    · rintro op u v ⟨hkept, hquiet⟩ hstep
      obtain ⟨hlate, hnext⟩ := hquiet.step hstep
      exact ⟨hkept.step hlate hstep, hnext⟩
  exact ⟨hinv.1, hinv.2.blocked_of_armed⟩

/-- If every state is safe, an argument that is reached with the signal not blocked arms
no timer, since the state after its `timer_settime` is safe. -/
theorem armNothing_of_safe (hsafe : ∀ s, (runs args blocked).Reachable s → Safe s)
    (rest : List (List UInt8)) {s : State} (hs : (runs args blocked).Reachable s)
    (hpc : s.pc = .timerCreate rest) (hb : s.blocked = false) : ArmNothing rest := by
  induction rest generalizing s with
  | nil => simp [ArmNothing]
  | cons arg rest ih =>
      by_cases hvalid : (itimerspecFromStr arg).Valid
      · have hacc : accepted arg := by simpa [accepted] using hvalid
        have hcreated : (runs args blocked).Reachable
            { s with pc := .timerSettime (itimerspecFromStr arg) rest } :=
          hs.next ⟨.main true, by simp [step, main, hpc]⟩
        have hset : (runs args blocked).Reachable { s with
            pc := .timerCreate rest
            timers := s.timers ++
              [⟨(itimerspecFromStr arg).arms, (itimerspecFromStr arg).interval ≠ ⟨0, 0⟩⟩] } :=
          hcreated.next ⟨.main true, by simp [step, main, hvalid]⟩
        have hoff : (itimerspecFromStr arg).arms = false := by
          by_contra harm
          have hblocked := (hsafe _ hset).blocked ⟨by simp, _, List.mem_append_right _
            (List.mem_singleton_self _), by simpa using harm⟩
          simp [hb] at hblocked
        rw [ArmNothing, List.takeWhile_cons_of_pos hacc]
        exact List.forall_mem_cons.mpr ⟨hoff, ih hset rfl hb⟩
      · have hacc : ¬accepted arg := by simpa [accepted] using hvalid
        simp [ArmNothing, List.takeWhile_cons_of_neg hacc]

end Runs

/-- Every run is safe exactly when the signal is blocked from the start or no argument
arms a timer. In the runs in which no timer expires before the signal is blocked, no
expiration is lost. -/
theorem signal_blocked_iff (args : List (List UInt8)) (blocked : Bool) :
    ((∀ s, (runs args blocked).Reachable s → Safe s) ↔ blocked ∨ ArmNothing args) ∧
      ∀ s, (lateRuns args blocked).Reachable s → Kept s := by
  refine ⟨⟨fun hsafe => ?_, fun h s => safe_of_armNothing h⟩, fun s => kept_of_late⟩
  refine or_iff_not_imp_left.mpr fun hb => ?_
  cases args with
  | nil => simp [ArmNothing]
  | cons arg rest =>
      have hstart : (runs (arg :: rest) blocked).Reachable
          { State.initial blocked with pc := .timerCreate (arg :: rest) } :=
        .next (.start rfl) ⟨.main true, by simp [step, main, State.initial]⟩
      exact armNothing_of_safe hsafe _ hstart rfl (by simpa [State.initial] using hb)

/-- One timer of one second that expires before `sigprocmask`. -/
theorem early_expiration_kills :
    ∃ s, (runs [[49]] false).Reachable s ∧ s.pc = .killed ∧ ¬Safe s := by
  have hreach := System.reachable_of_schedule
    (System.Reachable.start (M := runs [[49]] false) rfl)
    [.main true, .main true, .main true, .expire 0] rfl
  exact ⟨_, hreach, rfl, fun hsafe => hsafe.alive rfl⟩

end TlpiExercises.PtmrSigevSignal
