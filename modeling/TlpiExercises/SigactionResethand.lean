import TlpiExercises.CText
import TlpiExercises.SignalDelivery
import TlpiExercises.Stdio

/-!
# A handler that is established for one signal

With `SA_RESETHAND` the disposition of `SIGINT` is back to its default when the handler starts, and
without `SA_NODEFER` the signal is blocked until the handler returns. The second `SIGINT` kills the
process, but not before the call for the first one has printed its last line. What is still in the
buffer of `stdout` is lost then. The runs start when `sigaction` has returned; until then the first
`SIGINT` kills the process.
-/
namespace TlpiExercises.SigactionResethand
open CText SignalDelivery Stdio

/-- What the call of `handler` does next. -/
inductive PC where
  | load
  | store (v : Int32)
  | loadId
  | print (id : Int32)
  | printDone (id : Int32)
  | done
  deriving DecidableEq, Repr

structure Mem where
  handlerCount : Int32
  stdout : Output

/-- `"%s: PID is %ld\n"`. -/
def pidLine (argv0 : List UInt8) (pid : ℤ) : List UInt8 :=
  argv0 ++ ascii ": PID is " ++ printInt pid ++ ascii "\n"

def startedLine : List UInt8 := ascii "Started handler\n"

/-- `"Done handler %d\n"`. -/
def doneLine (id : Int32) : List UInt8 := ascii "Done handler " ++ printInt id.toInt ++ ascii "\n"

section Program

variable (policy : List UInt8 → ℕ)

def handler : PC → Mem → Option (PC × Mem)
  | .load, m => some (.store m.handlerCount, m)
  | .store v, m => some (.loadId, { m with handlerCount := v + 1 })
  | .loadId, m => some (.print m.handlerCount, m)
  | .print id, m => some (.printDone id, { m with stdout := m.stdout.printf policy startedLine })
  | .printDone id, m => some (.done, { m with stdout := m.stdout.printf policy (doneLine id) })
  | .done, _ => none

/-- `SIGINT` is the only signal; `main` loops without end. -/
def program : Program Unit PC Mem where
  queued _ := false
  discards _ _ := false
  discards_self _ := rfl
  nodefer _ := false
  resethand _ := true
  entry := .load
  handler _ := handler policy
  main _ blocked m := (blocked, m)
  exited _ := false

/-- `main` has printed its first line. -/
def Mem.initial (argv0 : List UInt8) (pid : ℤ) : Mem :=
  ⟨0, Output.empty.printf policy (pidLine argv0 pid)⟩

def system (argv0 : List UInt8) (pid : ℤ) : System (Proc Unit PC Mem) :=
  (program policy).system (fun _ => True) (fun _ => true) (.initial policy argv0 pid)

end Program

section Stages

variable {policy : List UInt8 → ℕ} {argv0 : List UInt8} {pid : ℤ} {out : Output}
  {p q : Proc Unit PC Mem}

/-- The memory during the call, by what it does next, after `out` was printed. -/
def During (policy : List UInt8 → ℕ) (out : Output) : PC → Mem → Prop
  | .load, m => m = ⟨0, out⟩
  | .store v, m => v = 0 ∧ m = ⟨0, out⟩
  | .loadId, m => m = ⟨1, out⟩
  | .print id, m => id = 1 ∧ m = ⟨1, out⟩
  | .printDone id, m => id = 1 ∧ m = ⟨1, out.printf policy startedLine⟩
  | .done, m => m = ⟨1, (out.printf policy startedLine).printf policy (doneLine 1)⟩

theorem During.handler {pc pc' : PC} {m m' : Mem} (h : During policy out pc m)
    (hrun : handler policy pc m = some (pc', m')) : During policy out pc' m' := by
  cases pc <;> cases hrun <;> simp_all [During]

/-- Before the call, during it and after it. -/
inductive Stage (policy : List UInt8 → ℕ) (out : Output) (p : Proc Unit PC Mem) : Prop
  | before (hhandled : p.handled () = true) (hframes : p.frames = []) (hmem : p.mem = ⟨0, out⟩)
      (hdelivered : p.delivered () = 0) (hkilled : p.killed = false)
  | during (pc : PC) (saved : Unit → Bool) (hhandled : p.handled () = false)
      (hframes : p.frames = [⟨(), pc, saved⟩]) (hblocked : p.blocked () = true)
      (hmem : During policy out pc p.mem) (hdelivered : p.delivered () = 1) (hkilled : p.killed = false)
  | after (hhandled : p.handled () = false) (hframes : p.frames = [])
      (hmem : p.mem = ⟨1, (out.printf policy startedLine).printf policy (doneLine 1)⟩)
      (hdelivered : p.delivered () = 1 + p.killed.toNat)

theorem Stage.deliver (h : Stage policy out p) (hrunning : p.killed = false)
    (hblocked : p.blocked () = false) : Stage policy out ((program policy).deliver () p) := by
  cases h with
  | before hhandled hframes hmem hdelivered hkilled =>
      rw [deliver_of_handled hhandled]
      refine .during .load p.blocked ?_ ?_ ?_ hmem ?_ hkilled
      · simp [Program.enter, program]
      · simp [Program.enter, hframes, program]
      · simp [Program.enter, program]
      · simp [Program.enter, hdelivered]
  | during pc saved _ _ hmask _ _ _ =>
      rw [hmask] at hblocked
      contradiction
  | after hhandled hframes hmem hdelivered =>
      have hkill : (program policy).deliver () p = { p with
          pending := Function.update p.pending () (p.pending () - 1)
          delivered := Function.update p.delivered () (p.delivered () + 1)
          killed := true } := by
        simp [Program.deliver, hhandled]
      rw [hkill]
      refine .after hhandled hframes hmem ?_
      simp [hdelivered, hrunning]

theorem Stage.handler (h : Stage policy out p) {f : Frame Unit PC} {rest : List (Frame Unit PC)}
    (hframes : p.frames = f :: rest) :
    Stage policy out ((program policy).runHandler f rest p) := by
  cases h with
  | before _ hnone _ _ _ =>
      rw [hnone] at hframes
      cases hframes
  | after _ hnone _ _ =>
      rw [hnone] at hframes
      cases hframes
  | during pc saved hhandled hone hblocked hmem hdelivered hkilled =>
      rw [hone] at hframes
      cases hframes
      unfold Program.runHandler
      split
      next pc' m' hrun =>
        exact .during pc' saved hhandled rfl hblocked (hmem.handler hrun) hdelivered hkilled
      next hreturn =>
        have hdone : pc = .done := by
          cases pc with
          | done => rfl
          | _ => cases hreturn
        subst hdone
        refine .after hhandled rfl hmem ?_
        simp [hdelivered, hkilled]

theorem stage_of_reachable (h : (system policy argv0 pid).Reachable p) :
    Stage policy (Output.empty.printf policy (pidLine argv0 pid)) p := by
  refine Program.invariant (Stage policy _) (.before rfl rfl rfl rfl rfl) ?_ h
  intro p q hp hrunning _ hinv hstep
  cases hstep with
  | generate i _ =>
      cases hinv with
      | before h₁ h₂ h₃ h₄ h₅ => exact .before h₁ h₂ h₃ h₄ h₅
      | during pc saved h₁ h₂ h₃ h₄ h₅ h₆ => exact .during pc saved h₁ h₂ h₃ h₄ h₅ h₆
      | after h₁ h₂ h₃ h₄ => exact .after h₁ h₂ h₃ h₄
  | deliver i _ hblocked => exact hinv.deliver hrunning hblocked
  | handler f rest hframes => exact hinv.handler hframes
  | main _ => exact hinv

end Stages

/-- The output of a process that has called the handler: the lines in order, written or not. -/
def output (policy : List UInt8 → ℕ) (argv0 : List UInt8) (pid : ℤ) : Output :=
  ((Output.empty.printf policy (pidLine argv0 pid)).printf policy startedLine).printf policy
    (doneLine 1)

section Output

variable (argv0 : List UInt8) (pid : ℤ)

theorem printed_output (policy : List UInt8 → ℕ) : (output policy argv0 pid).printed =
    pidLine argv0 pid ++ startedLine ++ doneLine 1 := by
  simp [output]

variable {policy : List UInt8 → ℕ}

/-- On a terminal every line goes out at once. -/
theorem file_output_of_lines (h : ∀ line, policy (line ++ ascii "\n") = (line ++ ascii "\n").length) :
    (output policy argv0 pid).file = pidLine argv0 pid ++ startedLine ++ doneLine 1 := by
  have hprintf : ∀ line file, Output.printf policy (line ++ ascii "\n") ⟨[], file⟩ =
      ⟨[], file ++ (line ++ ascii "\n")⟩ := by
    intro line file
    rw [Output.printf_of_all _ _ (h line)]
    simp [Output.printed]
  have hstarted : startedLine = ascii "Started handler" ++ ascii "\n" := by decide
  rw [output, Output.empty, hstarted, pidLine, doneLine, hprintf, hprintf, hprintf]
  rfl

/-- In a large buffer every line stays. -/
theorem file_output_of_none (h : ∀ bytes, policy bytes = 0) :
    (output policy argv0 pid).file = [] := by
  simp [output, Output.printf_of_none, h, Output.empty]

end Output

/-- Once `sigaction` has returned, the handler is called at most once, and a process that is killed
has finished the call before: it has called `printf` for both lines, and a second `SIGINT` was
sent. The lines are seen if each goes out at once, and all of them, the first one of `main`
included, are lost with the buffer if none does. -/
theorem killed_after_handler {policy : List UInt8 → ℕ} {argv0 : List UInt8} {pid : ℤ}
    {p : Proc Unit PC Mem} (h : (system policy argv0 pid).Reachable p) :
    p.mem.handlerCount ∈ [0, 1] ∧ p.frames.length ≤ 1 ∧
      (p.killed → p.frames = [] ∧ 2 ≤ p.generated () ∧
        p.mem.stdout.printed = pidLine argv0 pid ++ startedLine ++ doneLine 1 ∧
        ((∀ line, policy (line ++ ascii "\n") = (line ++ ascii "\n").length) →
          p.mem.stdout.file = p.mem.stdout.printed) ∧
        ((∀ bytes, policy bytes = 0) → p.mem.stdout.file = [])) := by
  have hacc := (accounted_of_reachable h ()).le
  cases stage_of_reachable h with
  | before hhandled hframes hmem hdelivered hkilled =>
      refine ⟨by simp [hmem], by simp [hframes], ?_⟩
      rw [hkilled]
      exact fun hk => absurd hk Bool.false_ne_true
  | during pc saved hhandled hframes hblocked hmem hdelivered hkilled =>
      refine ⟨?_, by simp [hframes], ?_⟩
      · cases pc <;> simp_all [During]
      · rw [hkilled]
        exact fun hk => absurd hk Bool.false_ne_true
  | after hhandled hframes hmem hdelivered =>
      refine ⟨by simp [hmem], by simp [hframes], fun hk => ?_⟩
      rw [hk, Bool.toNat_true] at hdelivered
      have hout : p.mem.stdout = output policy argv0 pid := by rw [hmem, output]
      have hprinted := printed_output argv0 pid policy
      rw [hout]
      exact ⟨hframes, by omega, hprinted, fun hlines => by
        rw [hprinted, file_output_of_lines argv0 pid hlines], file_output_of_none argv0 pid⟩

/-- The second signal arrives while the handler runs; nothing of what was printed is written. -/
theorem killed_after_handler_twice :
    ∃ p, (system (fun _ => 0) (ascii "./a.out") 7).Reachable p ∧ p.killed ∧
      p.mem.stdout.file = [] := by
  have hreach : (system (fun _ => 0) (ascii "./a.out") 7).Reachable _ :=
    Program.reachable_of_schedule
      [.generate (), .deliver (), .handler, .generate (), .handler, .handler, .handler, .handler,
        .handler, .deliver ()] (fun _ _ => trivial) rfl
  exact ⟨_, hreach, rfl, ((killed_after_handler hreach).2.2 rfl).2.2.2.2 fun _ => rfl⟩

end TlpiExercises.SigactionResethand
