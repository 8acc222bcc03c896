import TlpiExercises.CText
import TlpiExercises.Exits

/-!
# Numeric arguments with `getLong` and `getInt`

An argument is converted as a decimal number and has to be nothing but that number, in the
range of the type, and in the range that the flags ask for. Anything else ends the program
with a message.
-/
namespace TlpiExercises.GetNum
open CText Exits

/-- The flags on the sign of the value; none of those for another base is set. -/
structure Flags where
  nonneg : Bool
  gt0 : Bool
  deriving DecidableEq, Repr

/-- `GN_GT_0`. -/
def gnGt0 : Flags := ⟨false, true⟩

/-- The message that `gnFail` prints. -/
inductive GnFail where
  | empty
  | strtolFailed
  | nonnumeric
  | negative
  | notPositive
  | outOfRange
  deriving DecidableEq, Repr

/-- Where no number starts the text, `strtol` returns zero and reads nothing. -/
def getNum (flags : Flags) (arg : List UInt8) : Except GnFail ℤ := do
  require (arg ≠ []) .empty
  let (res, endptr) := (scanInt arg).getD (0, arg)
  require (clampLong res = res) .strtolFailed
  require (endptr = []) .nonnumeric
  require (!flags.nonneg || 0 ≤ res) .negative
  require (!flags.gt0 || 0 < res) .notPositive
  return res

def getLong (flags : Flags) (arg : List UInt8) : Except GnFail Int64 := do
  let res ← getNum flags arg
  return Int64.ofInt res

def getInt (flags : Flags) (arg : List UInt8) : Except GnFail Int32 := do
  let res ← getNum flags arg
  require (-2 ^ 31 ≤ res ∧ res < 2 ^ 31) .outOfRange
  return Int32.ofInt res

theorem clampLong_eq_self_iff {x : ℤ} : clampLong x = x ↔ -2 ^ 63 ≤ x ∧ x < 2 ^ 63 := by
  unfold clampLong
  omega

/-- An argument is accepted exactly if it ends with the number it starts with, and the number is
in range. -/
theorem getNum_eq_ok_iff {flags : Flags} {arg : List UInt8} {res : ℤ} :
    getNum flags arg = .ok res ↔ scanInt arg = some (res, []) ∧ (-2 ^ 63 ≤ res ∧ res < 2 ^ 63) ∧
      (flags.nonneg → 0 ≤ res) ∧ (flags.gt0 → 0 < res) := by
  have hflag : ∀ (b : Bool) (p : Prop) [Decidable p], (!b || decide p) = true ↔ (b → p) := by
    intro b p _
    cases b <;> simp
  unfold getNum
  simp only [bind_eq_ok_iff, require_eq_ok_iff, pure_eq_ok_iff, exists_and_left, exists_const,
    decide_eq_true_eq, hflag, clampLong_eq_self_iff]
  cases hscan : scanInt arg with
  | none =>
      refine iff_of_false ?_ (by simp)
      rintro ⟨hne, -, hend, -⟩
      exact hne hend
  | some r =>
      obtain ⟨x, rest⟩ := r
      have hne : arg ≠ [] := by
        rintro rfl
        cases hscan
      simp only [Option.getD_some, Option.some.injEq, Prod.mk.injEq]
      constructor
      · rintro ⟨-, hrange, hend, hnonneg, hgt0, rfl⟩
        exact ⟨⟨rfl, hend⟩, hrange, hnonneg, hgt0⟩
      · rintro ⟨⟨rfl, hend⟩, hrange, hnonneg, hgt0⟩
        exact ⟨hne, hrange, hend, hnonneg, hgt0, rfl⟩

theorem getInt_eq_ok_iff {flags : Flags} {arg : List UInt8} {n : Int32} :
    getInt flags arg = .ok n ↔ scanInt arg = some (n.toInt, []) ∧ (flags.nonneg → 0 ≤ n.toInt) ∧
      (flags.gt0 → 0 < n.toInt) := by
  have hl := n.le_toInt
  have hr := n.toInt_lt
  unfold getInt
  simp only [bind_eq_ok_iff, require_eq_ok_iff, pure_eq_ok_iff, exists_and_left, exists_const,
    decide_eq_true_eq, getNum_eq_ok_iff]
  constructor
  · rintro ⟨res, ⟨hscan, -, hflags⟩, hrange, rfl⟩
    rw [Int32.toInt_ofInt_of_le hrange.1 hrange.2]
    exact ⟨hscan, hflags⟩
  · rintro ⟨hscan, hflags⟩
    exact ⟨n.toInt, ⟨hscan, by omega, hflags⟩, ⟨hl, hr⟩, Int32.ofInt_toInt n⟩

/-- Every `int` that the flags allow is accepted as it is printed. -/
theorem getInt_printInt {flags : Flags} {n : Int32} (hnonneg : flags.nonneg → 0 ≤ n.toInt)
    (hgt0 : flags.gt0 → 0 < n.toInt) : getInt flags (printInt n.toInt) = .ok n := by
  refine getInt_eq_ok_iff.mpr ⟨?_, hnonneg, hgt0⟩
  have hscan : scanInt ([] ++ (printInt n.toInt ++ [])) = some (n.toInt, []) :=
    scanInt_numeral (isNumeral_printInt n.toInt) [] (by simp) (by simp)
  rwa [List.nil_append, List.append_nil] at hscan

end TlpiExercises.GetNum
