import TlpiExercises.Transition

/-!
# Reaping children from a signal handler

`SIGCHLD` is a standard signal: however many children end while it is pending, the handler is
called once. Each call therefore waits for children until none is left that has ended. Any thread
may be chosen to run the handler, several threads may run it at once, and children end at any
time. `printWaitStatus` decodes the status of each child.
-/
namespace TlpiExercises.PthreadFork

/-- The `int` that `waitpid` stores. -/
abbrev Status := BitVec 32

def wIfExited (status : Status) : Bool := status &&& 0x7f = 0
def wExitStatus (status : Status) : Status := (status &&& 0xff00) >>> 8
def wIfSignaled (status : Status) : Bool :=
  0 < ((((status &&& 0x7f) + 1).truncate 8).sshiftRight 1).toInt
def wTermSig (status : Status) : Status := status &&& 0x7f
def wCoreDump (status : Status) : Bool := status &&& 0x80 ≠ 0
def wIfStopped (status : Status) : Bool := status &&& 0xff = 0x7f
def wIfContinued (status : Status) : Bool := status = 0xffff

/-- What `printWaitStatus` prints. -/
inductive Line where
  | exited (code : ℕ)
  | killed (sig : ℕ) (core : Bool)
  | stopped (sig : ℕ)
  | continued
  | whatHappened (status : ℕ)
  deriving DecidableEq, Repr

def printWaitStatus (status : Status) : Line :=
  if wIfExited status then .exited (wExitStatus status).toNat
  else if wIfSignaled status then .killed (wTermSig status).toNat (wCoreDump status)
  else if wIfStopped status then .stopped (wExitStatus status).toNat
  else if wIfContinued status then .continued
  else .whatHappened status.toNat

/-- What happens to a child: `exit`, death by one of the signals 1 to 64, a stop, or its end. -/
inductive Change where
  | exited (code : BitVec 32)
  | killed (sig : Fin 64) (core : Bool)
  | stopped (sig : Fin 64)
  | continued
  deriving DecidableEq

/-- The status the kernel makes of it; of an exit code only the low byte is kept. -/
def Change.status : Change → Status
  | .exited code => (code &&& 0xff) <<< 8
  | .killed sig core => BitVec.ofNat 32 (sig + 1) ||| (if core then 0x80 else 0)
  | .stopped sig => BitVec.ofNat 32 (sig + 1) <<< 8 ||| 0x7f
  | .continued => 0xffff

/-- The child has ended; the handler does not ask for stopped and continued ones. -/
def Change.ends : Change → Bool
  | .exited _ | .killed _ _ => true
  | _ => false

def Change.line : Change → Line
  | .exited code => .exited (code.toNat % 256)
  | .killed sig core => .killed (sig + 1) core
  | .stopped sig => .stopped (sig + 1)
  | .continued => .continued

section Statuses

theorem printWaitStatus_byte :
    ∀ code : Fin 256, printWaitStatus (BitVec.ofNat 32 code <<< 8) = .exited code := by
  decide +kernel

theorem printWaitStatus_killed :
    ∀ (sig : Fin 64) (core : Bool),
      printWaitStatus (Change.killed sig core).status = .killed (sig + 1) core := by
  decide

theorem printWaitStatus_stopped :
    ∀ sig : Fin 64, printWaitStatus (Change.stopped sig).status = .stopped (sig + 1) := by
  decide

theorem low_byte (code : BitVec 32) : code &&& 0xff = BitVec.ofNat 32 (code.toNat % 256) := by
  apply BitVec.eq_of_toNat_eq
  have hmod : code.toNat &&& (2 ^ 8 - 1) = code.toNat % 256 :=
    Nat.and_two_pow_sub_one_eq_mod code.toNat 8
  rw [BitVec.toNat_and, BitVec.toNat_ofNat, Nat.mod_eq_of_lt (by omega)]
  exact hmod

/-- Every status is decoded to what has happened. -/
theorem printWaitStatus_status (c : Change) : printWaitStatus c.status = c.line := by
  cases c with
  | exited code =>
      rw [Change.status, low_byte]
      exact printWaitStatus_byte ⟨code.toNat % 256, Nat.mod_lt _ (by decide)⟩
  | killed sig core => exact printWaitStatus_killed sig core
  | stopped sig => exact printWaitStatus_stopped sig
  | continued => decide

end Statuses

/-- A child, from before its `fork` to after `waitpid` has returned it. -/
inductive Child where
  | unborn
  | running
  | zombie (c : Change)
  | reaped (c : Change)
  deriving DecidableEq

def Child.isZombie : Child → Bool
  | .zombie _ => true
  | _ => false

/-- A thread outside the handler, before a call of `waitpid`, or about to print what it returned. -/
inductive ThreadPC (ι : Type*) where
  | outside
  | waitpid
  | report (child : ι) (status : Status)
  deriving DecidableEq

/-- `pending` is the one bit of `SIGCHLD`. -/
structure State (ι τ : Type*) where
  child : ι → Child
  thread : τ → ThreadPC ι
  pending : Bool
  output : List (ι × Line)

def State.initial (ι τ : Type*) : State ι τ := ⟨fun _ => .unborn, fun _ => .outside, false, []⟩

/-- A child forks or ends, a thread is chosen for the signal, or a thread makes a step of the
handler; `waitpid` returns any child that has ended. -/
inductive Label (ι τ : Type*) where
  | fork (i : ι)
  | dies (i : ι) (c : Change)
  | deliver (t : τ)
  | waitpid (t : τ) (returned : Option ι)
  | report (t : τ)

variable {ι τ : Type*} [DecidableEq ι] [DecidableEq τ]

def State.setChild (s : State ι τ) (i : ι) (c : Child) : State ι τ :=
  { s with child := Function.update s.child i c }

def State.setThread (s : State ι τ) (t : τ) (pc : ThreadPC ι) : State ι τ :=
  { s with thread := Function.update s.thread t pc }

variable [Fintype ι]

def waitpid (t : τ) : Option ι → State ι τ → Option (State ι τ)
  | some i, s =>
      match s.child i with
      | .zombie c => some ((s.setChild i (.reaped c)).setThread t (.report i c.status))
      | _ => none
  | none, s =>
      if ∀ i, (s.child i).isZombie = false then some (s.setThread t .outside) else none

/-- The `printf` calls of one report are one step: other threads may print between them in the
program, which does not change what is reported of a child. -/
def step (label : Label ι τ) (s : State ι τ) : Option (State ι τ) :=
  match label with
  | .fork i => if s.child i = .unborn then some (s.setChild i .running) else none
  | .dies i c =>
      if s.child i = .running ∧ c.ends then
        some { s.setChild i (.zombie c) with pending := true }
      else none
  | .deliver t =>
      if s.pending ∧ s.thread t = .outside then
        some { s.setThread t .waitpid with pending := false }
      else none
  | .waitpid t returned => if s.thread t = .waitpid then waitpid t returned s else none
  | .report t =>
      match s.thread t with
      | .report i status =>
          some { s.setThread t .waitpid with
            output := s.output ++ [(i, printWaitStatus status)] }
      | _ => none

/-- All interleavings of any number of children and threads. -/
def system (ι τ : Type*) [DecidableEq ι] [DecidableEq τ] [Fintype ι] : System (State ι τ) :=
  .ofNext (· = .initial ι τ) step

section Runs

variable {s s' : State ι τ} {t : τ} {i : ι}

/-- While a child is a zombie, the signal is pending or a thread will call `waitpid`. And every
child that was reaped is reported once, as what has happened to it. -/
structure Inv (s : State ι τ) : Prop where
  zombie : ∀ i, (s.child i).isZombie → s.pending ∨ ∃ t, s.thread t ≠ .outside
  report : ∀ t i status, s.thread t = .report i status →
    ∃ c, s.child i = .reaped c ∧ status = c.status
  apart : ∀ t u i status status', s.thread t = .report i status → s.thread u = .report i status' →
    t = u
  unreported : ∀ t i status, s.thread t = .report i status → i ∉ s.output.map Prod.fst
  reported : ∀ i c, s.child i = .reaped c →
    (i, c.line) ∈ s.output ∨ ∃ t, s.thread t = .report i c.status
  output : ∀ i line, (i, line) ∈ s.output → ∃ c, s.child i = .reaped c ∧ line = c.line
  nodup : (s.output.map Prod.fst).Nodup

omit [Fintype ι] [DecidableEq τ] in
/-- A child that was not reaped changes, and if it is a zombie now the signal is pending. -/
theorem Inv.setChild (h : Inv s) {c : Child} (hold : ∀ c', s.child i ≠ .reaped c')
    (hnew : ∀ c', c ≠ .reaped c') (b : Bool) (hb : c.isZombie → b) (hpending : s.pending → b) :
    Inv { s.setChild i c with pending := b } := by
  have hother : ∀ k c', s.child k = .reaped c' → Function.update s.child i c k = .reaped c' := by
    intro k c' hk
    rw [Function.update_of_ne]
    · exact hk
    · rintro rfl
      exact hold c' hk
  refine ⟨fun k hk => ?_, fun t k status ht => ?_, h.apart, h.unreported, fun k c' hk => ?_,
    fun k line hk => ?_, h.nodup⟩
  · by_cases hki : k = i
    · have hk' : (Function.update s.child i c k).isZombie := hk
      rw [hki, Function.update_self] at hk'
      exact .inl (hb hk')
    · have hk' : (Function.update s.child i c k).isZombie := hk
      rw [Function.update_of_ne hki] at hk'
      exact (h.zombie k hk').imp hpending id
  · obtain ⟨c', hk, hstatus⟩ := h.report t k status ht
    exact ⟨c', hother k c' hk, hstatus⟩
  · have hk' : Function.update s.child i c k = .reaped c' := hk
    have hki : k ≠ i := by
      rintro rfl
      rw [Function.update_self] at hk'
      exact hnew c' hk'
    rw [Function.update_of_ne hki] at hk'
    exact h.reported k c' hk'
  · obtain ⟨c', hk', hline⟩ := h.output k line hk
    exact ⟨c', hother k c' hk', hline⟩

omit [DecidableEq ι] [Fintype ι] in
/-- A thread that does not print goes on to something else than printing. -/
theorem Inv.setThread (h : Inv s) {pc : ThreadPC ι}
    (hold : ∀ i status, s.thread t ≠ .report i status) (hnew : ∀ i status, pc ≠ .report i status)
    (b : Bool)
    (hzombie : ∀ i, (s.child i).isZombie → b ∨ ∃ u, Function.update s.thread t pc u ≠ .outside) :
    Inv { s.setThread t pc with pending := b } := by
  have hback : ∀ u i status, Function.update s.thread t pc u = .report i status →
      s.thread u = .report i status := by
    intro u i status hu
    have hut : u ≠ t := by
      rintro rfl
      rw [Function.update_self] at hu
      exact hnew i status hu
    rwa [Function.update_of_ne hut] at hu
  refine ⟨hzombie, fun u i status hu => h.report u i status (hback u i status hu),
    fun u v i status status' hu hv =>
      h.apart u v i status status' (hback u i status hu) (hback v i status' hv),
    fun u i status hu => h.unreported u i status (hback u i status hu), fun i c hi => ?_, h.output,
    h.nodup⟩
  rcases h.reported i c hi with hmem | ⟨u, hu⟩
  · exact .inl hmem
  · have hut : u ≠ t := by
      rintro rfl
      exact hold i c.status hu
    exact .inr ⟨u, (Function.update_of_ne hut ..).trans hu⟩

omit [DecidableEq ι] [Fintype ι] in
theorem report_of_update {pc : ThreadPC ι} {u : τ} {k : ι} {status : Status}
    (h : Function.update s.thread t pc u = .report k status) :
    u = t ∧ pc = .report k status ∨ u ≠ t ∧ s.thread u = .report k status := by
  by_cases hut : u = t
  · subst hut
    rw [Function.update_self] at h
    exact .inl ⟨rfl, h⟩
  · rw [Function.update_of_ne hut] at h
    exact .inr ⟨hut, h⟩

omit [DecidableEq ι] [Fintype ι] [DecidableEq τ] in
/-- A child that is not reaped yet is not reported by any thread. -/
theorem Inv.not_report (h : Inv s) {c : Change} (hi : s.child i = .zombie c) (u : τ)
    (status : Status) : s.thread u ≠ .report i status := by
  intro hu
  obtain ⟨c', hc', -⟩ := h.report u i status hu
  rw [hi] at hc'
  cases hc'

omit [DecidableEq ι] [Fintype ι] [DecidableEq τ] in
/-- Nor is it printed. -/
theorem Inv.notMem_output (h : Inv s) {c : Change} (hi : s.child i = .zombie c) :
    i ∉ s.output.map Prod.fst := by
  intro hmem
  obtain ⟨⟨_, line⟩, hline, rfl⟩ := List.mem_map.mp hmem
  obtain ⟨c', hc', -⟩ := h.output _ line hline
  rw [hi] at hc'
  cases hc'

omit [Fintype ι] in
/-- `waitpid` returns a child that has ended. -/
theorem Inv.reap (h : Inv s) {c : Change} (ht : s.thread t = .waitpid)
    (hi : s.child i = .zombie c) :
    Inv ((s.setChild i (.reaped c)).setThread t (.report i c.status)) := by
  have hother : ∀ k c', s.child k = .reaped c' →
      Function.update s.child i (.reaped c) k = .reaped c' := by
    intro k c' hk
    rw [Function.update_of_ne]
    · exact hk
    · rintro rfl
      rw [hi] at hk
      cases hk
  refine ⟨fun _ _ => .inr ⟨t, ?_⟩, fun u k status hu => ?_, fun u v k status status' hu hv => ?_,
    fun u k status hu => ?_, fun k c' hk => ?_, fun k line hk => ?_, h.nodup⟩
  · show Function.update s.thread t (.report i c.status) t ≠ .outside
    rw [Function.update_self]
    simp
  · rcases report_of_update hu with ⟨-, heq⟩ | ⟨-, hu⟩
    · obtain ⟨rfl, rfl⟩ : i = k ∧ c.status = status := by simpa using heq
      exact ⟨c, Function.update_self .., rfl⟩
    · obtain ⟨c', hk, hstatus⟩ := h.report u k status hu
      exact ⟨c', hother k c' hk, hstatus⟩
  · rcases report_of_update hu with ⟨hu, heq⟩ | ⟨-, hu⟩ <;>
      rcases report_of_update hv with ⟨hv, heq'⟩ | ⟨-, hv⟩
    · exact hu.trans hv.symm
    · obtain ⟨rfl, -⟩ : i = k ∧ c.status = status := by simpa using heq
      exact absurd hv (h.not_report hi v status')
    · obtain ⟨rfl, -⟩ : i = k ∧ c.status = status' := by simpa using heq'
      exact absurd hu (h.not_report hi u status)
    · exact h.apart u v k status status' hu hv
  · rcases report_of_update hu with ⟨-, heq⟩ | ⟨-, hu⟩
    · obtain ⟨rfl, -⟩ : i = k ∧ c.status = status := by simpa using heq
      exact h.notMem_output hi
    · exact h.unreported u k status hu
  · by_cases hki : k = i
    · subst hki
      obtain rfl : c = c' := by
        have hk' : Function.update s.child k (.reaped c) k = .reaped c' := hk
        simpa using hk'
      exact .inr ⟨t, Function.update_self ..⟩
    · have hk' : Function.update s.child i (.reaped c) k = .reaped c' := hk
      rw [Function.update_of_ne hki] at hk'
      rcases h.reported k c' hk' with hmem | ⟨u, hu⟩
      · exact .inl hmem
      · have hut : u ≠ t := by
          rintro rfl
          rw [ht] at hu
          cases hu
        exact .inr ⟨u, (Function.update_of_ne hut ..).trans hu⟩
  · obtain ⟨c', hk', hline⟩ := h.output k line hk
    exact ⟨c', hother k c' hk', hline⟩

omit [DecidableEq ι] [Fintype ι] in
/-- The child that `waitpid` returned is printed. -/
theorem Inv.print (h : Inv s) {status : Status} (ht : s.thread t = .report i status) :
    Inv { s.setThread t .waitpid with output := s.output ++ [(i, printWaitStatus status)] } := by
  obtain ⟨c, hi, rfl⟩ := h.report t i status ht
  have hback : ∀ u k status', Function.update s.thread t .waitpid u = .report k status' →
      u ≠ t ∧ s.thread u = .report k status' := by
    intro u k status' hu
    rcases report_of_update hu with ⟨-, heq⟩ | hu
    · cases heq
    · exact hu
  rw [printWaitStatus_status]
  refine ⟨fun _ _ => .inr ⟨t, ?_⟩, fun u k status' hu => h.report u k status' (hback u k status' hu).2,
    fun u v k st st' hu hv => h.apart u v k st st' (hback u k st hu).2 (hback v k st' hv).2,
    fun u k status' hu => ?_, fun k c' hk => ?_, fun k line hk => ?_, ?_⟩
  · show Function.update s.thread t .waitpid t ≠ .outside
    rw [Function.update_self]
    simp
  · obtain ⟨hut, hu'⟩ := hback u k status' hu
    rw [List.map_append, List.mem_append, not_or]
    refine ⟨h.unreported u k status' hu', fun hmem => hut ?_⟩
    obtain rfl : k = i := by simpa using hmem
    exact h.apart u t k status' c.status hu' ht
  · rcases h.reported k c' hk with hmem | ⟨u, hu⟩
    · exact .inl (List.mem_append_left _ hmem)
    · by_cases hut : u = t
      · subst hut
        obtain ⟨rfl, -⟩ : i = k ∧ c.status = c'.status := by
          rw [ht] at hu
          simpa using hu
        obtain rfl : c = c' := by
          have hk' : s.child i = .reaped c' := hk
          rw [hi] at hk'
          simpa using hk'
        exact .inl (List.mem_append_right _ List.mem_cons_self)
      · exact .inr ⟨u, (Function.update_of_ne hut ..).trans hu⟩
  · rcases List.mem_append.mp hk with hk | hk
    · exact h.output k line hk
    · obtain ⟨rfl, rfl⟩ : k = i ∧ line = c.line := by simpa using hk
      exact ⟨c, hi, rfl⟩
  · rw [List.map_append, List.map_singleton, ← List.concat_eq_append]
    exact h.nodup.concat (h.unreported t i c.status ht)

theorem Inv.step (h : Inv s) {label : Label ι τ} (hstep : step label s = some s') : Inv s' := by
  cases label with
  | fork i =>
      obtain ⟨hi, hstep⟩ := Option.ite_none_right_eq_some.mp hstep
      obtain rfl := Option.some.inj hstep
      exact h.setChild (by simp [hi]) (by simp) s.pending (fun hz => nomatch hz) id
  | dies i c =>
      obtain ⟨⟨hi, -⟩, hstep⟩ := Option.ite_none_right_eq_some.mp hstep
      obtain rfl := Option.some.inj hstep
      exact h.setChild (by simp [hi]) (by simp) true (fun _ => rfl) fun _ => rfl
  | deliver t =>
      obtain ⟨⟨-, ht⟩, hstep⟩ := Option.ite_none_right_eq_some.mp hstep
      obtain rfl := Option.some.inj hstep
      refine h.setThread (by simp [ht]) (by simp) false fun _ _ => .inr ⟨t, ?_⟩
      rw [Function.update_self]
      simp
  | waitpid t returned =>
      obtain ⟨ht, hstep⟩ := Option.ite_none_right_eq_some.mp hstep
      cases returned with
      | some i =>
          cases hi : s.child i <;> simp only [waitpid, hi, reduceCtorEq, Option.some.injEq] at hstep
          subst hstep
          exact h.reap ht hi
      | none =>
          obtain ⟨hnone, hstep⟩ := Option.ite_none_right_eq_some.mp hstep
          obtain rfl := Option.some.inj hstep
          refine h.setThread (by simp [ht]) (by simp) s.pending fun i hi => ?_
          rw [hnone i] at hi
          contradiction
  | report t =>
      simp only [PthreadFork.step] at hstep
      split at hstep
      next i status ht =>
        obtain rfl := Option.some.inj hstep
        exact h.print ht
      next => cases hstep

theorem inv_of_reachable (h : (system ι τ).Reachable s) : Inv s := by
  have hstart : Inv (State.initial ι τ) :=
    ⟨fun _ hi => (nomatch hi), fun _ _ _ ht => (nomatch ht), fun _ _ _ _ _ ht => (nomatch ht),
      fun _ _ _ ht => (nomatch ht), fun _ _ hi => (nomatch hi),
      fun _ _ hmem => absurd hmem List.not_mem_nil, List.nodup_nil⟩
  exact System.invariant_of_next Inv hstart (fun _ _ _ hs hstep => hs.step hstep) h

end Runs

/-- However the signals of the children merge and whichever threads run the handler: when the signal
is not pending and no thread is in the handler, no child is left as a zombie, and the output has
one line for each child that has ended, which says how. -/
theorem all_reaped {s : State ι τ} (h : (system ι τ).Reachable s) (hpending : s.pending = false)
    (houtside : ∀ t, s.thread t = .outside) :
    (∀ i, (s.child i).isZombie = false) ∧ (s.output.map Prod.fst).Nodup ∧
      ∀ i line, (i, line) ∈ s.output ↔ ∃ c, s.child i = .reaped c ∧ line = c.line := by
  have hinv := inv_of_reachable h
  refine ⟨fun i => ?_, hinv.nodup, fun i line => ⟨hinv.output i line, ?_⟩⟩
  · by_contra hzombie
    rcases hinv.zombie i (by simpa using hzombie) with hp | ⟨t, ht⟩
    · rw [hpending] at hp
      contradiction
    · exact ht (houtside t)
  · rintro ⟨c, hi, rfl⟩
    rcases hinv.reported i c hi with hmem | ⟨t, ht⟩
    · exact hmem
    · rw [houtside t] at ht
      cases ht

/-- Two children end before the one call of the handler. -/
theorem all_reaped_merged :
    ∃ s : State Bool Unit, (system Bool Unit).Reachable s ∧ s.output.length = 2 ∧
      (true, .exited 44) ∈ s.output ∧ ∀ i, (s.child i).isZombie = false := by
  have hreach := System.reachable_of_schedule
    (System.Reachable.start (M := system Bool Unit) rfl)
    [.fork true, .fork false, .dies true (.exited 300), .dies false (.killed 8 false), .deliver (),
      .waitpid () (some false), .report (), .waitpid () (some true), .report (),
      .waitpid () none] rfl
  exact ⟨_, hreach, rfl, by decide, (all_reaped hreach rfl fun _ => rfl).1⟩

end TlpiExercises.PthreadFork
