import TlpiExercises.Transition

/-!
# Parent and child race to print

The parent creates `numChildren` children one after the other. After each `fork` parent and child
print a line, in any order, and the parent waits for the child to end before the next round.
-/
namespace TlpiExercises.ForkWhosOnFirst

inductive Who where
  | parent
  | child
  deriving DecidableEq, Repr

/-- What the parent does next: the test of the loop with `fork`, `printf`, or `wait`. It ends with
`EXIT_SUCCESS` or after a failed `fork`. -/
inductive ParentPC where
  | fork
  | print
  | wait
  | exited
  | failed
  deriving DecidableEq, Repr

/-- A child with its copy of `j`: it prints, and then it is a zombie until the parent waits. -/
structure Child where
  j : ℕ
  printed : Bool
  deriving DecidableEq, Repr

structure State where
  j : ℕ
  pc : ParentPC
  child : Option Child
  output : List (ℕ × Who)
  deriving DecidableEq, Repr

def State.initial : State := ⟨0, .fork, none, []⟩

/-- Who moves; `forkFails` is a `fork` that returns -1. -/
inductive Label where
  | parent
  | forkFails
  | child
  deriving DecidableEq, Repr

def step (numChildren : ℕ) (label : Label) (s : State) : Option State :=
  match label, s.pc with
  | .parent, .fork =>
      if s.j < numChildren then some { s with pc := .print, child := some ⟨s.j, false⟩ }
      else some { s with pc := .exited }
  | .forkFails, .fork => if s.j < numChildren then some { s with pc := .failed } else none
  | .parent, .print => some { s with pc := .wait, output := s.output ++ [(s.j, .parent)] }
  | .parent, .wait =>
      match s.child with
      | some c => if c.printed then some { s with pc := .fork, j := s.j + 1, child := none } else none
      | none => none
  | .child, _ =>
      match s.child with
      | some c =>
          if c.printed then none
          else some { s with
            child := some { c with printed := true }
            output := s.output ++ [(c.j, .child)] }
      | none => none
  | _, _ => none

def system (numChildren : ℕ) : System State := .ofNext (· = .initial) (step numChildren)

/-- The lines of one round, by who was first. -/
def round (j : ℕ) : Who → List (ℕ × Who)
  | .parent => [(j, .parent), (j, .child)]
  | .child => [(j, .child), (j, .parent)]

/-- The lines of the rounds from `j` on. -/
def rounds : ℕ → List Who → List (ℕ × Who)
  | _, [] => []
  | j, first :: rest => round j first ++ rounds (j + 1) rest

theorem rounds_concat (j : ℕ) (firsts : List Who) (w : Who) :
    rounds j (firsts ++ [w]) = rounds j firsts ++ round (j + firsts.length) w := by
  induction firsts generalizing j with
  | nil => simp [rounds]
  | cons first rest ih =>
      simp only [List.cons_append, rounds, ih, List.append_assoc, List.length_cons]
      congr 3
      omega

section Runs

variable {n : ℕ} {s t : State}

/-- The lines of the round under way, by where parent and child are. -/
inductive Underway (j : ℕ) : ParentPC → Option Child → List (ℕ × Who) → Prop
  | fork : Underway j .fork none []
  | forked : Underway j .print (some ⟨j, false⟩) []
  | childFirst : Underway j .print (some ⟨j, true⟩) [(j, .child)]
  | parentFirst : Underway j .wait (some ⟨j, false⟩) [(j, .parent)]
  | both (w : Who) : Underway j .wait (some ⟨j, true⟩) (round j w)
  | exited : Underway j .exited none []
  | failed : Underway j .failed none []

/-- Whole rounds, and the lines of the one under way. -/
structure Inv (n : ℕ) (s : State) : Prop where
  output : ∃ firsts part, firsts.length = s.j ∧ Underway s.j s.pc s.child part ∧
    s.output = rounds 0 firsts ++ part
  le : s.j ≤ n
  lt : s.child.isSome → s.j < n
  exited : s.pc = .exited → s.j = n

theorem Inv.parent (h : Inv n s) (hstep : step n .parent s = some t) : Inv n t := by
  obtain ⟨j, pc, child, output⟩ := s
  obtain ⟨⟨firsts, part, hlen, hunder, hout⟩, hle, hlt, -⟩ := h
  dsimp only at hlen hunder hout hle hlt
  cases hunder with
  | fork =>
      simp only [step] at hstep
      split_ifs at hstep with hj <;> obtain rfl := Option.some.inj hstep
      · exact ⟨⟨firsts, [], hlen, .forked, hout⟩, hle, fun _ => hj, fun hpc => nomatch hpc⟩
      · exact ⟨⟨firsts, [], hlen, .exited, hout⟩, hle, hlt, fun _ => le_antisymm hle (not_lt.mp hj)⟩
  | forked =>
      obtain rfl := Option.some.inj hstep
      refine ⟨⟨firsts, _, hlen, .parentFirst, ?_⟩, hle, hlt, fun hpc => nomatch hpc⟩
      simpa using hout
  | childFirst =>
      obtain rfl := Option.some.inj hstep
      refine ⟨⟨firsts, _, hlen, .both .child, ?_⟩, hle, hlt, fun hpc => nomatch hpc⟩
      simp [round, hout]
  | parentFirst => cases hstep
  | both w =>
      obtain rfl := Option.some.inj hstep
      refine ⟨⟨firsts ++ [w], [], by simp [hlen], .fork, ?_⟩, hlt rfl, fun hsome => (nomatch hsome),
        fun hpc => nomatch hpc⟩
      rw [rounds_concat, hlen, Nat.zero_add, List.append_nil]
      exact hout
  | exited => cases hstep
  | failed => cases hstep

theorem Inv.child (h : Inv n s) (hstep : step n .child s = some t) : Inv n t := by
  obtain ⟨j, pc, child, output⟩ := s
  obtain ⟨⟨firsts, part, hlen, hunder, hout⟩, hle, hlt, -⟩ := h
  dsimp only at hlen hunder hout hle hlt
  cases hunder with
  | forked =>
      obtain rfl := Option.some.inj hstep
      refine ⟨⟨firsts, _, hlen, .childFirst, ?_⟩, hle, hlt, fun hpc => nomatch hpc⟩
      simpa using hout
  | parentFirst =>
      obtain rfl := Option.some.inj hstep
      refine ⟨⟨firsts, _, hlen, .both .parent, ?_⟩, hle, hlt, fun hpc => nomatch hpc⟩
      simp [round, hout]
  | _ => cases hstep

theorem Inv.forkFails (h : Inv n s) (hstep : step n .forkFails s = some t) : Inv n t := by
  obtain ⟨j, pc, child, output⟩ := s
  obtain ⟨⟨firsts, part, hlen, hunder, hout⟩, hle, hlt, -⟩ := h
  dsimp only at hlen hunder hout hle hlt
  cases hunder with
  | fork =>
      obtain ⟨hj, hstep⟩ := Option.ite_none_right_eq_some.mp hstep
      obtain rfl := Option.some.inj hstep
      exact ⟨⟨firsts, [], hlen, .failed, hout⟩, hle, hlt, fun hpc => nomatch hpc⟩
  | _ => cases hstep

theorem inv_of_reachable (h : (system n).Reachable s) : Inv n s := by
  have hstart : Inv n .initial :=
    ⟨⟨[], [], rfl, .fork, rfl⟩, Nat.zero_le n, fun hsome => (nomatch hsome), fun hpc => nomatch hpc⟩
  refine System.invariant_of_next (Inv n) hstart (fun label s t hs hstep => ?_) h
  cases label with
  | parent => exact hs.parent hstep
  | forkFails => exact hs.forkFails hstep
  | child => exact hs.child hstep

/-- The schedule of one round. -/
def turns : Who → List Label
  | .parent => [.parent, .parent, .child, .parent]
  | .child => [.parent, .child, .parent, .parent]

theorem foldlM_turns {j : ℕ} (hj : j < n) (out : List (ℕ × Who)) (w : Who) :
    (turns w).foldlM (fun u l => step n l u) ⟨j, .fork, none, out⟩ =
      some ⟨j + 1, .fork, none, out ++ round j w⟩ := by
  cases w <;> simp [turns, step, hj, round]

/-- Any order in each of the rounds that are left can be scheduled. -/
theorem reachable_rounds {j : ℕ} (firsts : List Who) (hj : j + firsts.length ≤ n)
    {out : List (ℕ × Who)} (h : (system n).Reachable ⟨j, .fork, none, out⟩) :
    (system n).Reachable ⟨j + firsts.length, .fork, none, out ++ rounds j firsts⟩ := by
  induction firsts generalizing j out with
  | nil => simpa [rounds] using h
  | cons w firsts ih =>
      rw [List.length_cons] at hj
      have hround := System.reachable_of_schedule h (turns w) (foldlM_turns (by omega) out w)
      have hrest := ih (by omega) hround
      rw [List.append_assoc] at hrest
      rw [List.length_cons, Nat.add_comm firsts.length, ← Nat.add_assoc]
      exact hrest

end Runs

/-- A run that exits successfully prints the two lines of each child next to each other, with
either one first, and every choice of who is first occurs. -/
theorem output_iff (numChildren : ℕ) (out : List (ℕ × Who)) :
    (∃ s, (system numChildren).Reachable s ∧ s.pc = .exited ∧ s.output = out) ↔
      ∃ firsts : List Who, firsts.length = numChildren ∧ out = rounds 0 firsts := by
  constructor
  · rintro ⟨s, hs, hpc, rfl⟩
    obtain ⟨⟨firsts, part, hlen, hunder, hout⟩, -, -, hexited⟩ := inv_of_reachable hs
    have hpart : part = [] := by
      generalize s.child = child at hunder
      rw [hpc] at hunder
      cases hunder
      rfl
    rw [hpart, List.append_nil] at hout
    exact ⟨firsts, hlen.trans (hexited hpc), hout⟩
  · rintro ⟨firsts, rfl, rfl⟩
    have hrounds := reachable_rounds firsts (n := firsts.length) (by omega) (.start rfl)
    have hexit : step firsts.length .parent ⟨0 + firsts.length, .fork, none, [] ++ rounds 0 firsts⟩ =
        some ⟨0 + firsts.length, .exited, none, [] ++ rounds 0 firsts⟩ := by
      simp [step]
    exact ⟨_, hrounds.next ⟨.parent, hexit⟩, rfl, rfl⟩

end TlpiExercises.ForkWhosOnFirst
