import TlpiExercises.GetNumBases

/-!
# The blocks that `free_and_sbrk` frees

The program allocates a number of blocks and frees every block at a multiple of a step, between two
bounds that are counted from one. The arguments are checked, so that all indices are in range and no
block is freed twice; what is not checked is that the index, an `int`, can take the last step.
-/
namespace TlpiExercises.FreeAndSbrk
open CText (ascii)
open Exits GetNum

/-- `MAX_ALLOCS`. -/
abbrev maxAllocs : ℤ := 1000000

/-- What `getInt` returns with `GN_GT_0`. -/
abbrev Positive := {n : Int32 // 0 < n.toInt}

/-- The arguments that are not accepted. -/
inductive ArgError where
  | usage
  | number (message : GnFail)
  | numAllocs
  | freeMax
  deriving DecidableEq, Repr

/-- The arguments after the checks. -/
structure Settings where
  numAllocs : Positive
  blockSize : Positive
  freeStep : Positive
  freeMin : Positive
  freeMax : Positive
  numAllocs_le : numAllocs.1.toInt ≤ maxAllocs
  freeMax_le : freeMax.1.toInt ≤ numAllocs.1.toInt

def getPositive (bases : BaseFlags) (arg : List UInt8) : Except ArgError Positive :=
  match h : getIntIn bases gnGt0 arg with
  | .ok n => .ok ⟨n, getIntIn_pos rfl h⟩
  | .error message => .error (.number message)

def decimalBase : BaseFlags := ⟨false, false, false⟩

/-- `GN_ANY_BASE`. -/
def anyBase : BaseFlags := ⟨true, false, false⟩

theorem toInt_one_pos : 0 < (1 : Int32).toInt := by decide

/-- The step and the lower bound if they are left out. -/
def one : Positive := ⟨1, toInt_one_pos⟩

/-- An argument that may be left out. -/
def getOptional (arg : Option (List UInt8)) (default : Positive) : Except ArgError Positive :=
  match arg with
  | none => .ok default
  | some arg => getPositive decimalBase arg

/-- The checks of the arguments after the name of the program. -/
def readArgs : List (List UInt8) → Except ArgError Settings
  | numArg :: sizeArg :: more => do
      require (numArg ≠ ascii "--help") .usage
      let numAllocs ← getPositive decimalBase numArg
      if hnum : numAllocs.1.toInt ≤ maxAllocs then
        let blockSize ← getPositive anyBase sizeArg
        let freeStep ← getOptional more[0]? one
        let freeMin ← getOptional more[1]? one
        let freeMax ← getOptional more[2]? numAllocs
        if hmax : freeMax.1.toInt ≤ numAllocs.1.toInt then
          return ⟨numAllocs, blockSize, freeStep, freeMin, freeMax, hnum, hmax⟩
        else .error .freeMax
      else .error .numAllocs
  | _ => .error .usage

/-- How the program ends before its last line; `overflow` is the step of the index beyond the
largest `int`. -/
inductive Stop where
  | args (e : ArgError)
  | malloc (j : ℕ)
  | overflow
  deriving DecidableEq, Repr

/-- The first loop, where `malloc j` says whether the call for block `j` succeeds. -/
def allocLoop (malloc : ℕ → Bool) : ℕ → ℕ → Except Stop Unit
  | 0, _ => .ok ()
  | k + 1, j => if malloc j then allocLoop malloc k (j + 1) else .error (.malloc j)

/-- The second loop: the indices of the blocks that are freed from `j` on. -/
def freeLoop (s : Settings) (j : ℤ) : Except Stop (List ℤ) :=
  if j < s.freeMax.1.toInt then
    if j + s.freeStep.1.toInt < 2 ^ 31 then
      (freeLoop s (j + s.freeStep.1.toInt)).map (j :: ·)
    else .error .overflow
  else .ok []
termination_by (s.freeMax.1.toInt - j).toNat
decreasing_by
  have hstep := s.freeStep.2
  omega

/-- `main`: the indices of the freed blocks. -/
def main (malloc : ℕ → Bool) (args : List (List UInt8)) : Except Stop (List ℤ) := do
  let s ← (readArgs args).mapError .args
  allocLoop malloc s.numAllocs.1.toInt.toNat 0
  freeLoop s (s.freeMin.1.toInt - 1)

namespace Settings

variable (s : Settings)

/-- An index of the loop that is now at `j`. -/
def Steps (j i : ℤ) : Prop := j ≤ i ∧ i < s.freeMax.1.toInt ∧ s.freeStep.1.toInt ∣ i - j

/-- The blocks to be freed. -/
def Frees (j : ℤ) : Prop := s.Steps (s.freeMin.1.toInt - 1) j

variable {s}

theorem steps_iff {j i : ℤ} (hj : j < s.freeMax.1.toInt) :
    s.Steps j i ↔ i = j ∨ s.Steps (j + s.freeStep.1.toInt) i := by
  have hstep := s.freeStep.2
  unfold Steps
  constructor
  · rintro ⟨hle, hlt, k, hk⟩
    rcases eq_or_lt_of_le hle with rfl | hne
    · exact .inl rfl
    · have hk1 : 1 ≤ k := by
        by_contra hk0
        have hprod : s.freeStep.1.toInt * k ≤ 0 :=
          mul_nonpos_of_nonneg_of_nonpos hstep.le (by omega)
        omega
      have hprod : s.freeStep.1.toInt * 1 ≤ s.freeStep.1.toInt * k :=
        mul_le_mul_of_nonneg_left hk1 hstep.le
      refine .inr ⟨by omega, hlt, k - 1, ?_⟩
      rw [mul_sub, ← hk]
      ring
  · rintro (rfl | ⟨hle, hlt, k, hk⟩)
    · exact ⟨le_rfl, hj, by simp⟩
    · refine ⟨by omega, hlt, k + 1, ?_⟩
      rw [mul_add, ← hk]
      ring

theorem not_steps {j i : ℤ} (hj : ¬ j < s.freeMax.1.toInt) : ¬ s.Steps j i := by
  rintro ⟨hle, hlt, -⟩
  omega

end Settings

/-- The loop frees each of its indices once, unless the step from one of them overflows. -/
theorem freeLoop_cases (s : Settings) (j : ℤ) :
    (∃ freed, freeLoop s j = .ok freed ∧ freed.Pairwise (· < ·) ∧ (∀ i, i ∈ freed ↔ s.Steps j i) ∧
        ∀ i, s.Steps j i → i + s.freeStep.1.toInt < 2 ^ 31) ∨
      freeLoop s j = .error .overflow ∧ ∃ i, s.Steps j i ∧ 2 ^ 31 ≤ i + s.freeStep.1.toInt := by
  have hstep := s.freeStep.2
  fun_induction freeLoop s j with
  | case1 j hj hnext ih =>
      rcases ih with ⟨freed, hfreed, hsorted, hmem, hall⟩ | ⟨hover, i, hi, hlarge⟩
      · refine .inl ⟨j :: freed, by rw [hfreed]; rfl, ?_, fun i => ?_, fun i hi => ?_⟩
        · refine List.pairwise_cons.mpr ⟨fun i hi => ?_, hsorted⟩
          have hle := ((hmem i).mp hi).1
          omega
        · rw [List.mem_cons, hmem, Settings.steps_iff hj]
        · rcases (Settings.steps_iff hj).mp hi with rfl | hi
          · exact hnext
          · exact hall i hi
      · exact .inr ⟨by rw [hover]; rfl, i, (Settings.steps_iff hj).mpr (.inr hi), hlarge⟩
  | case2 j hj hnext =>
      exact .inr ⟨rfl, j, (Settings.steps_iff hj).mpr (.inl rfl), by omega⟩
  | case3 j hj =>
      exact .inl ⟨[], rfl, .nil, fun i => by simp [Settings.not_steps hj],
        fun i hi => absurd hi (Settings.not_steps hj)⟩

theorem allocLoop_cases (malloc : ℕ → Bool) (k j : ℕ) :
    (allocLoop malloc k j = .ok () ∧ ∀ i, j ≤ i → i < j + k → malloc i) ∨
      ∃ i, allocLoop malloc k j = .error (.malloc i) ∧ j ≤ i ∧ i < j + k ∧ malloc i = false := by
  induction k generalizing j with
  | zero => exact .inl ⟨rfl, fun i hle hlt => absurd hlt (by omega)⟩
  | succ k ih =>
      rw [allocLoop]
      cases hj : malloc j with
      | false => exact .inr ⟨j, rfl, le_rfl, by omega, hj⟩
      | true =>
          rw [if_pos rfl]
          rcases ih (j + 1) with ⟨hok, hall⟩ | ⟨i, hfails, hle, hlt, hi⟩
          · refine .inl ⟨hok, fun i hle hlt => ?_⟩
            rcases eq_or_lt_of_le hle with rfl | hlt'
            · exact hj
            · exact hall i hlt' (by omega)
          · exact .inr ⟨i, hfails, by omega, by omega, hi⟩

/-- The program after the checks of its arguments. -/
theorem main_of_readArgs {malloc : ℕ → Bool} {args : List (List UInt8)} {s : Settings}
    (hargs : readArgs args = .ok s) :
    main malloc args = (allocLoop malloc s.numAllocs.1.toInt.toNat 0).bind fun _ =>
      freeLoop s (s.freeMin.1.toInt - 1) := by
  rw [main, hargs]
  rfl

theorem Settings.Frees.bounds {s : Settings} {j : ℤ} (h : s.Frees j) :
    0 ≤ j ∧ j < s.numAllocs.1.toInt := by
  obtain ⟨hle, hlt, -⟩ := h
  have hmin := s.freeMin.2
  have hmax := s.freeMax_le
  omega

/-- The program comes to its end exactly if all blocks are allocated and the index can take the step
behind each block that is to be freed; then it has freed these blocks, which are some of the
allocated ones, each once and in order. Otherwise it fails to allocate, or the index overflows. -/
theorem frees_every_step (malloc : ℕ → Bool) (args : List (List UInt8)) :
    (∀ freed, main malloc args = .ok freed ↔ ∃ s, readArgs args = .ok s ∧
        (∀ j < s.numAllocs.1.toInt.toNat, malloc j) ∧
        (∀ j, s.Frees j → 0 ≤ j ∧ j < s.numAllocs.1.toInt ∧ j + s.freeStep.1.toInt < 2 ^ 31) ∧
        freed.Pairwise (· < ·) ∧ ∀ j, j ∈ freed ↔ s.Frees j) ∧
      (main malloc args = .error .overflow ↔ ∃ s, readArgs args = .ok s ∧
        (∀ j < s.numAllocs.1.toInt.toNat, malloc j) ∧
        ∃ j, s.Frees j ∧ 2 ^ 31 ≤ j + s.freeStep.1.toInt) := by
  cases hargs : readArgs args with
  | error e =>
      have hmain : main malloc args = .error (.args e) := by
        rw [main, hargs]
        rfl
      simp [hmain]
  | ok s =>
      rw [main_of_readArgs hargs]
      simp only [Except.ok.injEq, exists_eq_left']
      rcases allocLoop_cases malloc s.numAllocs.1.toInt.toNat 0 with
        ⟨halloc, hall⟩ | ⟨i, hfails, -, hlt, hi⟩
      · rw [halloc, Except.bind]
        have hmalloc : ∀ j < s.numAllocs.1.toInt.toNat, malloc j :=
          fun j hj => hall j (Nat.zero_le j) (by omega)
        rcases freeLoop_cases s (s.freeMin.1.toInt - 1) with
          ⟨freed, hfreed, hsorted, hmem, hnext⟩ | ⟨hover, j, hj, hlarge⟩
        · rw [hfreed]
          refine ⟨fun freed' => ⟨fun h => ?_, ?_⟩, iff_of_false nofun ?_⟩
          · obtain rfl := Except.ok.inj h
            have hrange : ∀ j, s.Frees j →
                0 ≤ j ∧ j < s.numAllocs.1.toInt ∧ j + s.freeStep.1.toInt < 2 ^ 31 :=
              fun j hj => ⟨hj.bounds.1, hj.bounds.2, hnext j hj⟩
            exact ⟨hmalloc, hrange, hsorted, hmem⟩
          · rintro ⟨-, -, hsorted', hmem'⟩
            rw [hsorted.eq_of_mem_iff hsorted' fun j => (hmem j).trans (hmem' j).symm]
          · rintro ⟨-, j, hj, hlarge⟩
            exact absurd (hnext j hj) (by omega)
        · rw [hover]
          refine ⟨fun freed => iff_of_false nofun ?_, iff_of_true rfl ⟨hmalloc, j, hj, hlarge⟩⟩
          rintro ⟨-, hrange, -⟩
          exact absurd (hrange j hj).2.2 (by omega)
      · rw [hfails, Except.bind]
        have hnot : ¬ ∀ j < s.numAllocs.1.toInt.toNat, malloc j := by
          intro hall
          rw [hall i (by omega)] at hi
          contradiction
        exact ⟨fun freed => iff_of_false nofun fun h => hnot h.1,
          iff_of_false (by simp) fun h => hnot h.1⟩

/-- The checks do not exclude the overflow: with two blocks and the largest step, the index of the
second block cannot take it. -/
theorem largest_step_overflows :
    main (fun _ => true) ([2, 8, 2147483647, 2].map CText.printInt) = .error .overflow := by
  decide +kernel

end TlpiExercises.FreeAndSbrk
