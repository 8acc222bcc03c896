import TlpiExercises.ErrorFunctions
import TlpiExercises.GetNum
import TlpiExercises.Transition

/-!
# A parent that reports on its child

The child exits with the status on the command line, or waits for signals, which may stop it,
continue it and end it at any time. The kernel keeps the latest change of the child until the
parent asks for it; a change that the parent did not ask for in time is replaced by the next one.
-/
namespace TlpiExercises.ChildStatus
open CText ErrorFunctions

/-- `si_code` with `si_status`. -/
inductive Info where
  | exited (status : ℕ)
  | killed (sig : ℕ)
  | dumped (sig : ℕ)
  | stopped (sig : ℕ)
  | continued (sig : ℕ)
  deriving DecidableEq, Repr

/-- `CLD_EXITED`, `CLD_DUMPED` or `CLD_KILLED`. -/
def Info.ends : Info → Bool
  | exited _ | dumped _ | killed _ => true
  | stopped _ | continued _ => false

/-- A line about a signal. -/
def signalLine (strsignal : ℕ → List UInt8) (what : String) (sig : ℕ) : List UInt8 :=
  ascii what ++ printInt sig ++ ascii " (" ++ strsignal sig ++ ascii ")\n"

def printWaitStatus (strsignal : ℕ → List UInt8) (info : Info) : List UInt8 :=
  (match info with
    | .exited status => ascii "child exited, status=" ++ printInt status ++ ascii "\n"
    | .killed sig => signalLine strsignal "child killed by signal " sig
    | .dumped sig => signalLine strsignal "child killed by signal " sig ++ ascii "core dumped\n"
    | .stopped sig => signalLine strsignal "child stopped by signal " sig
    | .continued _ => ascii "child continued\n") ++ ascii "\n"

/-- What the parent prints in a round of its loop. -/
def report (strsignal : ℕ → List UInt8) (pid : ℕ) (info : Info) : List UInt8 :=
  ascii "waitpid() returned: PID=" ++ printInt pid ++ ascii ";\n" ++ printWaitStatus strsignal info

/-- The status of a child with an argument: the low byte of the number, or `EXIT_FAILURE` if it is
none. -/
def exitStatus (arg : List UInt8) : ℕ :=
  match GetNum.getInt ⟨false, false⟩ arg with
  | .ok n => (n.toInt % 256).toNat
  | .error _ => exitFailure

inductive Child where
  | running
  | stopped
  | ended
  deriving DecidableEq, Repr

/-- The child, the change that the kernel keeps, whether the parent has exited, and what it has
printed. All changes of the child and those that were reported are kept for the statements. -/
structure State where
  child : Child
  kept : Option Info
  exited : Bool
  output : List UInt8
  history : List Info
  reported : List Info

inductive Op where
  | change (info : Info)
  | waitid
  deriving DecidableEq, Repr

section Steps

variable (strsignal : ℕ → List UInt8) (pid : ℕ) (arg : Option (List UInt8))

/-- The child after a change, if it can happen: a running child stops, a stopped one goes on, and
both can be killed. Only a child with an argument exits. -/
def Child.after : Child → Info → Option Child
  | running, .exited status => if (arg.map exitStatus) = some status then some .ended else none
  | running, .stopped _ => some .stopped
  | stopped, .continued _ => some .running
  | running, .killed _ | running, .dumped _ | stopped, .killed _ | stopped, .dumped _ => some .ended
  | _, _ => none

def step (op : Op) (s : State) : Option State :=
  match op with
  | .change info => do
      let child ← s.child.after arg info
      return { s with child, kept := some info, history := s.history ++ [info] }
  | .waitid => do
      let info ← s.kept
      if s.exited then none
      else
        return { s with
          kept := none
          exited := info.ends
          output := s.output ++ report strsignal pid info
          reported := s.reported ++ [info] }

def State.initial : State := ⟨.running, none, false, [], [], []⟩

def system : System State := System.ofNext (· = .initial) (step strsignal pid arg)

end Steps

section Invariant

variable {strsignal : ℕ → List UInt8} {pid : ℕ} {arg : Option (List UInt8)} {s t : State}

/-- What was reported and the change that is kept are some of the changes, in their order, and the
last one is among them. -/
structure Inv (strsignal : ℕ → List UInt8) (pid : ℕ) (arg : Option (List UInt8)) (s : State) :
    Prop where
  output : s.output = s.reported.flatMap (report strsignal pid)
  sublist : (s.reported ++ s.kept.toList).Sublist s.history
  last : (s.reported ++ s.kept.toList).getLast? = s.history.getLast?
  exited : s.exited ↔ ∃ info ∈ s.reported, info.ends
  quiet : s.exited → s.kept = none
  ended : s.child = .ended ↔ ∃ info ∈ s.history, info.ends
  final : ∀ info ∈ s.history.dropLast, info.ends = false
  status : ∀ status, .exited status ∈ s.history → arg.map exitStatus = some status

theorem Child.after_spec {child child' : Child} {info : Info} (h : child.after arg info = some child') :
    child ≠ .ended ∧ (child' = .ended ↔ info.ends) ∧
      ∀ status, info = .exited status → arg.map exitStatus = some status := by
  unfold Child.after at h
  split at h
  · obtain ⟨hstatus, hchild⟩ := Option.ite_none_right_eq_some.mp h
    obtain rfl := Option.some.inj hchild
    refine ⟨nofun, ⟨fun _ => rfl, fun _ => rfl⟩, ?_⟩
    rintro status ⟨⟩
    exact hstatus
  all_goals cases h
  all_goals exact ⟨nofun, by simp [Info.ends], nofun⟩

theorem Inv.change (hs : Inv strsignal pid arg s) {info : Info}
    (hstep : step strsignal pid arg (.change info) s = some t) : Inv strsignal pid arg t := by
  obtain ⟨child, hafter, ht⟩ := Option.bind_eq_some_iff.mp hstep
  obtain rfl := Option.some.inj ht
  obtain ⟨hrunning, hends, hstatus⟩ := Child.after_spec hafter
  have hnone : ∀ info ∈ s.history, info.ends = false := by
    intro info' hmem
    by_contra hend
    exact hrunning (hs.ended.mpr ⟨info', hmem, by simpa using hend⟩)
  have hreported : s.reported.Sublist s.history := (List.sublist_append_left ..).trans hs.sublist
  refine ⟨hs.output, hreported.append (.refl [info]), by simp, hs.exited, fun hexited => ?_, ?_, ?_,
    ?_⟩
  · -- the parent exits after the end of the child only
    obtain ⟨info', hmem, hend⟩ := hs.exited.mp hexited
    rw [hnone info' (hreported.subset hmem)] at hend
    contradiction
  · rw [hends]
    constructor
    · exact fun hend => ⟨info, by simp, hend⟩
    · rintro ⟨info', hmem, hend⟩
      rcases List.mem_append.mp hmem with hmem | hmem
      · rw [hnone info' hmem] at hend
        contradiction
      · exact List.mem_singleton.mp hmem ▸ hend
  · simpa using hnone
  · intro status hmem
    rcases List.mem_append.mp hmem with hmem | hmem
    · exact hs.status status hmem
    · exact hstatus status (List.mem_singleton.mp hmem).symm

theorem Inv.waitid (hs : Inv strsignal pid arg s)
    (hstep : step strsignal pid arg .waitid s = some t) : Inv strsignal pid arg t := by
  obtain ⟨info, hkept, ht⟩ := Option.bind_eq_some_iff.mp hstep
  obtain ⟨hexited, ht⟩ := Option.ite_none_left_eq_some.mp ht
  obtain rfl := Option.some.inj ht
  have hnone : ¬ ∃ info ∈ s.reported, info.ends := fun h => hexited (hs.exited.mpr h)
  have hlists : s.reported ++ s.kept.toList = s.reported ++ [info] ++ (none : Option Info).toList := by
    simp [hkept]
  refine ⟨?_, hlists ▸ hs.sublist, hlists ▸ hs.last, ?_, fun _ => rfl, hs.ended, hs.final, hs.status⟩
  · simp [hs.output]
  · constructor
    · exact fun hend => ⟨info, by simp, hend⟩
    · rintro ⟨info', hmem, hend⟩
      rcases List.mem_append.mp hmem with hmem | hmem
      · exact absurd ⟨info', hmem, hend⟩ hnone
      · exact List.mem_singleton.mp hmem ▸ hend

theorem inv_of_reachable (h : (system strsignal pid arg).Reachable s) : Inv strsignal pid arg s := by
  have hstart : Inv strsignal pid arg .initial :=
    ⟨rfl, .refl _, rfl, by simp [State.initial], fun _ => rfl, by simp [State.initial],
      by simp [State.initial], by simp [State.initial]⟩
  refine System.invariant_of_next _ hstart (fun op s t hs hstep => ?_) h
  cases op with
  | change info => exact hs.change hstep
  | waitid => exact hs.waitid hstep

/-- The end of the child is reported, or it is what the next `waitid` reports. -/
theorem Inv.reports_end (hinv : Inv strsignal pid arg s) (hended : s.child = .ended) :
    s.exited ∨ ∃ t, step strsignal pid arg .waitid s = some t ∧ t.exited := by
  cases hexited : s.exited with
  | true => exact .inl rfl
  | false =>
      -- the end is the last change, and it was not reported, so it is the one that is kept
      obtain ⟨info, hmem, hend⟩ := hinv.ended.mp hended
      have hlast : (s.reported ++ s.kept.toList).getLast? = some info := by
        rw [hinv.last]
        rcases List.eq_nil_or_concat s.history with hnil | ⟨front, last, hsplit⟩
        · rw [hnil] at hmem
          contradiction
        · have hfinal := hinv.final info
          rw [hsplit, List.concat_eq_append] at hmem hfinal ⊢
          rw [List.dropLast_concat, hend] at hfinal
          rw [List.getLast?_concat]
          rcases List.mem_append.mp hmem with hfront | hlast
          · exact absurd (hfinal hfront) (by decide)
          · rw [List.mem_singleton.mp hlast]
      cases hkept : s.kept with
      | none =>
          rw [hkept, Option.toList_none, List.append_nil] at hlast
          have hdone := hinv.exited.mpr ⟨info, List.mem_of_getLast? hlast, hend⟩
          rw [hexited] at hdone
          contradiction
      | some info' =>
          rw [hkept, Option.toList_some, List.getLast?_concat] at hlast
          obtain rfl := Option.some.inj hlast
          exact .inr ⟨_, by simp [step, hkept, hexited]; rfl, hend⟩

end Invariant

/-- However the changes of the child and the calls of the parent follow each other: what the parent
prints are some of the changes in their order, and an exit is reported with the status on the
command line. The end of the child is never missed: the parent exits exactly if it is among the
reports, where it is the last one, and until then the next `waitid` reports it. -/
theorem reports_changes {strsignal : ℕ → List UInt8} {pid : ℕ} {arg : Option (List UInt8)}
    {s : State} (h : (system strsignal pid arg).Reachable s) :
    s.output = s.reported.flatMap (report strsignal pid) ∧ s.reported.Sublist s.history ∧
      (∀ status, .exited status ∈ s.reported → arg.map exitStatus = some status) ∧
      (s.exited ↔ ∃ info ∈ s.reported, info.ends) ∧
      (s.exited → s.child = .ended ∧ s.reported.getLast? = s.history.getLast?) ∧
      (s.child = .ended → s.exited ∨
        ∃ t, step strsignal pid arg .waitid s = some t ∧ t.exited) := by
  have hinv := inv_of_reachable h
  have hreported : s.reported.Sublist s.history :=
    (List.sublist_append_left ..).trans hinv.sublist
  refine ⟨hinv.output, hreported, fun status hmem => hinv.status status (hreported.subset hmem),
    hinv.exited, ?_, hinv.reports_end⟩
  intro hexited
  obtain ⟨info, hmem, hend⟩ := hinv.exited.mp hexited
  refine ⟨hinv.ended.mpr ⟨info, hreported.subset hmem, hend⟩, ?_⟩
  have hlast := hinv.last
  rwa [hinv.quiet hexited, Option.toList_none, List.append_nil] at hlast

/-- The parent sees a stop late and reports the end of the child only. -/
theorem reports_changes_merged :
    ∃ s, (system (fun _ => []) 7 none).Reachable s ∧ s.history = [.stopped 19, .killed 9] ∧
      s.reported.Sublist s.history ∧ s.exited := by
  obtain ⟨s, hrun, hhistory, hexited⟩ : ∃ s, [Op.change (.stopped 19), .change (.killed 9),
      .waitid].foldlM (fun u op => step (fun _ => []) 7 none op u) .initial = some s ∧
        s.history = [.stopped 19, .killed 9] ∧ s.exited := ⟨_, rfl, rfl, rfl⟩
  have hstart : (system (fun _ => []) 7 none).Reachable .initial := .start rfl
  have hs := System.reachable_of_schedule hstart _ hrun
  exact ⟨s, hs, hhistory, (reports_changes hs).2.1, hexited⟩

end TlpiExercises.ChildStatus
