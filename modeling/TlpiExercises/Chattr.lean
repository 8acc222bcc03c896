import Mathlib.Tactic

/-!
# Changing inode flags with `chattr`

The first argument is an operator and letters that stand for flags. The operator is looked at
twice: before the loop, to decide whether the flags of the file are fetched, and for each
letter, to decide whether its flag is set or cleared. Arguments are the bytes of a string
without its terminating zero. `open`, `ioctl` and `close` succeed.
-/
namespace TlpiExercises.Chattr

/-- The flags of an inode. -/
abbrev Flags := BitVec 32

/-- The sizes of `path` and `flags`. -/
abbrev pathSize : ℕ := 1000
abbrev flagsSize : ℕ := 20

abbrev plus : UInt8 := 43
abbrev minus : UInt8 := 45
abbrev equals : UInt8 := 61

/-- The flag of a letter of `aAcCdDPsStTu`. -/
def flagNo (c : UInt8) : Option Flags :=
  if c = 97 then some 0x20#32            -- a: FS_APPEND_FL
  else if c = 65 then some 0x80#32       -- A: FS_NOATIME_FL
  else if c = 99 then some 0x4#32        -- c: FS_COMPR_FL
  else if c = 67 then some 0x800000#32   -- C: FS_NOCOW_FL
  else if c = 100 then some 0x40#32      -- d: FS_NODUMP_FL
  else if c = 68 then some 0x10000#32    -- D: FS_DIRSYNC_FL
  else if c = 80 then some 0x20000000#32 -- P: FS_PROJINHERIT_FL
  else if c = 115 then some 0x1#32       -- s: FS_SECRM_FL
  else if c = 83 then some 0x8#32        -- S: FS_SYNC_FL
  else if c = 116 then some 0x8000#32    -- t: FS_NOTAIL_FL
  else if c = 84 then some 0x20000#32    -- T: FS_TOPDIR_FL
  else if c = 117 then some 0x2#32       -- u: FS_UNRM_FL
  else none

/-- How the program ends: with `FS_IOC_SETFLAGS` for this word, with an error and the flags as
they were, or with an access outside an array. -/
inductive Ending where
  | written (flags : Flags)
  | failed
  | outOfBounds
  deriving DecidableEq, Repr

def tweakFlag (op : UInt8) (flag currentFlags : Flags) : Flags :=
  if op = plus ∨ op = equals then currentFlags ||| flag else currentFlags &&& ~~~flag

/-- `op` and `flags`, where `argv[1] + 1` is behind the end of an empty argument and both
strings are copied without a test of their length. -/
def readOpts (arg path : List UInt8) : Option (UInt8 × List UInt8) :=
  match arg with
  | [] => none
  | op :: flags => if path.length < pathSize ∧ flags.length < flagsSize then some (op, flags) else none

/-- The loop over the letters, `none` at an invalid one. -/
def tweakLoop (op : UInt8) : List UInt8 → Flags → Option Flags
  | [], inodeFlags => some inodeFlags
  | c :: flags, inodeFlags => do
      let flag ← flagNo c
      tweakLoop op flags (tweakFlag op flag inodeFlags)

/-- The program for a file with the flags `old`. -/
def main (arg path : List UInt8) (old : Flags) : Ending :=
  match readOpts arg path with
  | none => .outOfBounds
  | some (op, flags) =>
      match tweakLoop op flags (if op = plus ∨ op = minus then old else 0) with
      | none => .failed
      | some inodeFlags => .written inodeFlags

/-- The union of the flags of some letters. -/
def flagSet : List UInt8 → Option Flags
  | [] => some 0
  | c :: letters => do
      let flag ← flagNo c
      let rest ← flagSet letters
      return flag ||| rest

/-- The flags that an argument denotes for a file with the flags `old`. -/
def denoted (arg : List UInt8) (old : Flags) : Option Flags :=
  match arg with
  | [] => none
  | op :: letters => do
      let set ← flagSet letters
      if op = plus then return old ||| set
      else if op = minus then return old &&& ~~~set
      else if op = equals then return set
      else none

/-- The program does what the argument says. -/
def Meets (arg path : List UInt8) (old : Flags) : Prop :=
  main arg path old = ((denoted arg old).elim .failed .written)

theorem tweakFlag_zero (op : UInt8) (flags : Flags) : tweakFlag op 0 flags = flags := by
  unfold tweakFlag
  split
  · exact BitVec.or_zero
  · show flags &&& ~~~0#32 = flags
    rw [BitVec.not_zero, BitVec.and_allOnes]

/-- Two flags after the other are their union at once. -/
theorem tweakFlag_tweakFlag (op : UInt8) (f g flags : Flags) :
    tweakFlag op g (tweakFlag op f flags) = tweakFlag op (f ||| g) flags := by
  unfold tweakFlag
  split
  · rw [BitVec.or_assoc]
  · rw [BitVec.not_or, BitVec.and_assoc]

/-- The loop applies the operator to the union of the flags. -/
theorem tweakLoop_eq (op : UInt8) (letters : List UInt8) (flags : Flags) :
    tweakLoop op letters flags = (flagSet letters).map fun set => tweakFlag op set flags := by
  induction letters generalizing flags with
  | nil =>
      show some flags = some (tweakFlag op 0 flags)
      rw [tweakFlag_zero]
  | cons c letters ih =>
      rw [tweakLoop, flagSet]
      cases hc : flagNo c with
      | none => rfl
      | some f =>
          show tweakLoop op letters (tweakFlag op f flags) = _
          rw [ih]
          cases hs : flagSet letters with
          | none => rfl
          | some s =>
              show some (tweakFlag op s (tweakFlag op f flags)) = some (tweakFlag op (f ||| s) flags)
              rw [tweakFlag_tweakFlag]

theorem flagSet_isSome_iff (letters : List UInt8) :
    (flagSet letters).isSome ↔ ∀ c ∈ letters, flagNo c ≠ none := by
  induction letters with
  | nil => simp [flagSet]
  | cons c letters ih =>
      rw [List.forall_mem_cons, ← ih, flagSet]
      cases flagNo c with
      | none => simp
      | some f => cases flagSet letters <;> simp

/-- The program for an argument it can store. -/
theorem main_cons {op : UInt8} {letters path : List UInt8} (hpath : path.length < pathSize)
    (hletters : letters.length < flagsSize) (old : Flags) :
    main (op :: letters) path old = (flagSet letters).elim .failed fun set =>
      .written (tweakFlag op set (if op = plus ∨ op = minus then old else 0)) := by
  have hopts : readOpts (op :: letters) path = some (op, letters) := if_pos ⟨hpath, hletters⟩
  unfold main
  simp only [hopts, tweakLoop_eq]
  cases flagSet letters <;> rfl

theorem denoted_cons (op : UInt8) (letters : List UInt8) (old : Flags) :
    denoted (op :: letters) old = (flagSet letters).bind fun set =>
      if op = plus ∨ op = minus ∨ op = equals then
        some (tweakFlag op set (if op = plus ∨ op = minus then old else 0)) else none := by
  apply congrArg (flagSet letters).bind
  funext set
  by_cases hplus : op = plus
  · subst hplus
    rfl
  by_cases hminus : op = minus
  · subst hminus
    rfl
  by_cases hequals : op = equals
  · subst hequals
    simp only [hplus, hminus, tweakFlag, if_true, if_false, or_true, or_self]
    exact congrArg some BitVec.zero_or.symm
  · simp [hplus, hminus, hequals]

/-- The program does what its argument says exactly if it can store the argument and the path,
and the argument starts with an operator or has an invalid letter behind its first byte. -/
theorem main_meets_iff (arg path : List UInt8) (old : Flags) :
    Meets arg path old ↔ path.length < pathSize ∧ arg ≠ [] ∧ arg.length ≤ flagsSize ∧
      ((∃ op ∈ arg.head?, op = plus ∨ op = minus ∨ op = equals) ∨
        ∃ c ∈ arg.tail, flagNo c = none) := by
  have hbounds : ∀ r : Option Flags, Ending.outOfBounds ≠ r.elim .failed .written := by
    intro r
    cases r <;> simp
  cases arg with
  | nil => exact iff_of_false (hbounds _) (by simp)
  | cons op letters =>
      by_cases hfit : path.length < pathSize ∧ letters.length < flagsSize
      · obtain ⟨hpath, hletters⟩ := hfit
        have hlen : (op :: letters).length ≤ flagsSize := hletters
        simp only [hpath, hlen, ne_eq, reduceCtorEq, not_false_eq_true, true_and, List.head?_cons,
          Option.mem_some_iff, exists_eq_left', List.tail_cons]
        rw [Meets, main_cons hpath hletters, denoted_cons]
        cases hset : flagSet letters with
        | none =>
            refine iff_of_true rfl (.inr ?_)
            by_contra! hall
            have hsome := (flagSet_isSome_iff letters).mpr hall
            simp [hset] at hsome
        | some set =>
            have hall := (flagSet_isSome_iff letters).mp (by simp [hset])
            have hvalid : ¬ ∃ c ∈ letters, flagNo c = none := by
              rintro ⟨c, hc, hnone⟩
              exact hall c hc hnone
            simp only [Option.elim_some, Option.bind_some, hvalid, or_false]
            by_cases hop : op = plus ∨ op = minus ∨ op = equals
            · simp [hop]
            · simp [hop]
      · refine iff_of_false ?_ ?_
        · have hopts : readOpts (op :: letters) path = none := if_neg hfit
          unfold Meets main
          rw [hopts]
          exact hbounds _
        · rintro ⟨hpath, -, hlen, -⟩
          exact hfit ⟨hpath, hlen⟩

/-- `chattr xa f`: for an operator that does not exist all flags of the file are cleared. -/
theorem unknown_operator_clears_flags :
    main [120, 97] [102] 0x10 = .written 0 ∧ denoted [120, 97] 0x10 = none := by
  decide

end TlpiExercises.Chattr
