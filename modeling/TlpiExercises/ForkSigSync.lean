import TlpiExercises.Transition

/-!
# A parent that waits for a signal of its child

The parent blocks the signal before `fork`, so that a signal of the child stays pending until
`sigsuspend` waits for it. The end of the child itself does not wake the parent: `SIGCHLD` is
ignored. No other process sends the signal.
-/
namespace TlpiExercises.ForkSigSync

inductive Who where
  | parent
  | child
  deriving DecidableEq, Repr

/-- What the parent does next: the first line, `sigsuspend` with its wait and the handler, the last
line, and the call that restores the mask. -/
inductive ParentPC where
  | printWait
  | sigsuspend
  | suspended
  | handler
  | printGot
  | setMask
  | exited
  deriving DecidableEq, Repr

inductive ChildPC where
  | start
  | printSignal
  | kill
  | exited
  deriving DecidableEq, Repr

inductive Line where
  | parentWaits
  | childStarted
  | childSignals
  | parentGotSignal
  deriving DecidableEq, Repr

/-- Both processes; `strayed` tells that the child's signal went to another process, because
the parent was gone when it called `getppid`. -/
structure State where
  parent : ParentPC
  child : ChildPC
  pending : Bool
  strayed : Bool
  output : List Line
  deriving DecidableEq, Repr

/-- Right after `fork`. -/
def State.initial : State := ⟨.printWait, .start, false, false, []⟩

def advanceParent (s : State) : Option State :=
  match s.parent with
  | .printWait => some { s with parent := .sigsuspend, output := s.output ++ [.parentWaits] }
  | .sigsuspend => some { s with parent := .suspended }
  | .suspended => if s.pending then some { s with parent := .handler, pending := false } else none
  | .handler => some { s with parent := .printGot }
  | .printGot => some { s with parent := .setMask, output := s.output ++ [.parentGotSignal] }
  | .setMask => some { s with parent := .exited }
  | .exited => none

def advanceChild (s : State) : Option State :=
  match s.child with
  | .start => some { s with child := .printSignal, output := s.output ++ [.childStarted] }
  | .printSignal => some { s with child := .kill, output := s.output ++ [.childSignals] }
  | .kill =>
      some (if s.parent = .exited then { s with child := .exited, strayed := true }
        else { s with child := .exited, pending := true })
  | .exited => none

def advance : Who → State → Option State
  | .parent => advanceParent
  | .child => advanceChild

section Runs

variable {s t : State}

/-- The parent has not taken the signal. -/
def ParentPC.waits : ParentPC → Bool
  | .printWait | .sigsuspend | .suspended => true
  | _ => false

structure Inv (s : State) : Prop where
  before : s.child ≠ .exited → s.parent.waits ∧ s.pending = false
  after : s.child = .exited → s.pending = s.parent.waits
  strayed : s.strayed = false
  signals : s.child = .kill ∨ s.child = .exited → .childSignals ∈ s.output
  got : .parentGotSignal ∈ s.output ↔ s.parent = .setMask ∨ s.parent = .exited

theorem Inv.parent (h : Inv s) (hstep : advanceParent s = some t) : Inv t := by
  obtain ⟨parent, child, pending, strayed, output⟩ := s
  obtain ⟨hbefore, hafter, hstrayed, hsignals, hgot⟩ := h
  dsimp only at hbefore hafter hstrayed hsignals hgot
  cases parent <;> simp only [advanceParent, reduceCtorEq, Option.some.injEq] at hstep
  case suspended =>
    obtain ⟨hpending, hstep⟩ := Option.ite_none_right_eq_some.mp hstep
    obtain rfl := Option.some.inj hstep
    have hchild : child = .exited := by
      by_contra hne
      simp [hpending] at hbefore
      exact hne hbefore
    exact ⟨fun hne => absurd hchild hne, fun _ => rfl, hstrayed, hsignals, by simpa using hgot⟩
  all_goals
    subst hstep
    refine ⟨?_, ?_, hstrayed, ?_, ?_⟩ <;> simp_all [ParentPC.waits]

theorem Inv.child (h : Inv s) (hstep : advanceChild s = some t) : Inv t := by
  obtain ⟨parent, child, pending, strayed, output⟩ := s
  obtain ⟨hbefore, hafter, hstrayed, hsignals, hgot⟩ := h
  dsimp only at hbefore hafter hstrayed hsignals hgot
  cases child <;> simp only [advanceChild, reduceCtorEq, Option.some.injEq] at hstep
  case kill =>
    -- the parent is still there, since it has not taken the signal
    obtain ⟨hwaits, -⟩ := hbefore (by simp)
    have halive : parent ≠ .exited := by
      rintro rfl
      contradiction
    rw [if_neg halive] at hstep
    subst hstep
    exact ⟨fun hne => absurd rfl hne, fun _ => hwaits.symm, hstrayed,
      fun _ => hsignals (.inl rfl), hgot⟩
  all_goals
    subst hstep
    refine ⟨?_, ?_, hstrayed, ?_, ?_⟩ <;> simp_all

/-- The steps that a process has left. -/
def ParentPC.left : ParentPC → ℕ
  | .printWait => 6
  | .sigsuspend => 5
  | .suspended => 4
  | .handler => 3
  | .printGot => 2
  | .setMask => 1
  | .exited => 0

def ChildPC.left : ChildPC → ℕ
  | .start => 3
  | .printSignal => 2
  | .kill => 1
  | .exited => 0

theorem left_advance {who : Who} (hstep : advance who s = some t) :
    t.parent.left + t.child.left + 1 = s.parent.left + s.child.left := by
  obtain ⟨parent, child, pending, strayed, output⟩ := s
  cases who with
  | parent =>
      cases parent <;> simp only [advance, advanceParent, reduceCtorEq, Option.some.injEq] at hstep
      case suspended =>
        obtain ⟨-, hstep⟩ := Option.ite_none_right_eq_some.mp hstep
        obtain rfl := Option.some.inj hstep
        simp only [ParentPC.left]
        omega
      all_goals
        subst hstep
        simp only [ParentPC.left]
        omega
  | child =>
      cases child <;> simp only [advance, advanceChild, reduceCtorEq, Option.some.injEq] at hstep
      all_goals
        subst hstep
        try split_ifs
        all_goals simp only [ChildPC.left]

theorem inv_of_run (is : List Who) {s : State} (h : Inv s) {t : State}
    (hrun : is.foldlM (fun u i => advance i u) s = some t) :
    Inv t ∧ is.length + (t.parent.left + t.child.left) = s.parent.left + s.child.left := by
  induction is generalizing s with
  | nil =>
      obtain rfl : s = t := Option.some.inj hrun
      exact ⟨h, Nat.zero_add _⟩
  | cons who is ih =>
      rw [List.foldlM_cons, Option.bind_eq_bind, Option.bind_eq_some_iff] at hrun
      obtain ⟨u, hu, hrest⟩ := hrun
      have hinv : Inv u := by
        cases who with
        | parent => exact h.parent hu
        | child => exact h.child hu
      obtain ⟨ht, hlen⟩ := ih hinv hrest
      have hleft := left_advance hu
      rw [List.length_cons]
      exact ⟨ht, by omega⟩

end Runs

/-- In every interleaving the parent reports the signal only after the child has announced it, the
signal never goes to another process, and the processes only stop when both have ended: a signal
that comes before the wait is not lost. -/
theorem parent_waits_for_child (is : List Who) {s : State}
    (hrun : is.foldlM (fun u i => advance i u) .initial = some s) :
    (.parentGotSignal ∈ s.output → .childSignals ∈ s.output) ∧ s.strayed = false ∧
      is.length ≤ 9 ∧
      ((∀ who, advance who s = none) →
        s.parent = .exited ∧ s.child = .exited ∧ .parentGotSignal ∈ s.output) := by
  have hstart : Inv .initial :=
    ⟨fun _ => ⟨rfl, rfl⟩, fun h => (nomatch h), rfl, by simp [State.initial], by simp [State.initial]⟩
  obtain ⟨hinv, hlen⟩ := inv_of_run is hstart hrun
  refine ⟨fun hgot => ?_, hinv.strayed, ?_, fun hstuck => ?_⟩
  · refine hinv.signals (.inr ?_)
    by_contra hne
    obtain ⟨hwaits, -⟩ := hinv.before hne
    rcases hinv.got.mp hgot with hpc | hpc <;> rw [hpc] at hwaits <;> contradiction
  · have hnine : State.initial.parent.left + State.initial.child.left = 9 := rfl
    omega
  · have hchild : s.child = .exited := by
      have hnone : advanceChild s = none := hstuck .child
      cases hpc : s.child <;> simp [advanceChild, hpc] at hnone
      rfl
    have hparent : s.parent = .exited := by
      have hnone : advanceParent s = none := hstuck .parent
      have hpending := hinv.after hchild
      cases hpc : s.parent <;> simp [advanceParent, hpc] at hnone
      · rw [hpc, hnone] at hpending
        contradiction
      · rfl
    exact ⟨hparent, hchild, hinv.got.mpr (.inr hparent)⟩

/-- The child signals before the parent calls `sigsuspend`. -/
theorem parent_waits_for_child_early :
    ∃ s, [Who.child, .child, .child, .parent, .parent, .parent, .parent, .parent,
        .parent].foldlM (fun u i => advance i u) .initial = some s ∧
      s.parent = .exited ∧ s.child = .exited ∧ .parentGotSignal ∈ s.output := by
  have hrun := parent_waits_for_child [.child, .child, .child, .parent, .parent, .parent, .parent,
    .parent, .parent] rfl
  exact ⟨_, rfl, hrun.2.2.2 fun who => by cases who <;> rfl⟩

end TlpiExercises.ForkSigSync
