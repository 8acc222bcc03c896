import TlpiExercises.CText
import TlpiExercises.ProcessTreeOrder

/-!
# Listing the numbered entries of a directory

Three programs read a directory of `/proc` with one loop: a name of digits is copied to
a block of its own, whose address goes to the next entry of a table of `MAX_PROC_CNT`
pointers. The block is asked for as `malloc(sizeof(8))`, which is the size of an `int`.
A copy or an entry out of range is reported as `undefined`.
-/
namespace TlpiExercises.ProcDirs
open CText

/-- What `opendir` and the calls of `readdir` give: the names in listing order, and
whether the last call failed instead of reaching the end. -/
inductive Listing where
  | openFails
  | opens (names : List (List UInt8)) (failed : Bool)

/-- How a call of `readDirContent` ends; a table holds the stored names and `NULL`. -/
inductive Dirs where
  | exit
  | null
  | table (processDirs : List (Option (List UInt8)))
  | undefined
  deriving DecidableEq

/-- `sizeof(8)`. -/
abbrev blockSize : ℕ := 4

/-- No character of the name leads to `notPid`. -/
def isPid (name : List UInt8) : Bool := name.all isdigit

/-- The loop over the listing, with the names stored so far. -/
def storeNames (maxProcCnt : ℕ) (dirs : List (List UInt8)) :
    List (List UInt8) → Option (List (List UInt8))
  | [] => some dirs
  | d :: names =>
      if isPid d then
        -- the name is copied with its terminator
        if dirs.length < maxProcCnt ∧ d.length + 1 ≤ blockSize then
          storeNames maxProcCnt (dirs ++ [d]) names
        else none
      else storeNames maxProcCnt dirs names

/-- `processDirs[cnt] = NULL`. -/
def terminate (maxProcCnt : ℕ) (dirs : List (List UInt8)) : Dirs :=
  if dirs.length < maxProcCnt then .table (dirs.map some ++ [none]) else .undefined

/-- `readDirContent` of the programs that exit when the directory cannot be opened; the
end of the listing is not told from a failure of `readdir`. -/
def readDirOrExit (maxProcCnt : ℕ) : Listing → Dirs
  | .openFails => .exit
  | .opens names _ =>
      match storeNames maxProcCnt [] names with
      | none => .undefined
      | some dirs => terminate maxProcCnt dirs

end TlpiExercises.ProcDirs

namespace TlpiExercises.ProcessTree

def readDirContent : ProcDirs.Listing → ProcDirs.Dirs := ProcDirs.readDirOrExit maxProcCnt

end TlpiExercises.ProcessTree

namespace TlpiExercises.ProcessList

/-- `MAX_PROC_CNT`. -/
abbrev maxProcCnt : ℕ := 10000

def readDirContent : ProcDirs.Listing → ProcDirs.Dirs := ProcDirs.readDirOrExit maxProcCnt

end TlpiExercises.ProcessList

namespace TlpiExercises.ListFileUsage
open ProcDirs

/-- `MAX_PROC_CNT`. -/
abbrev maxProcCnt : ℕ := 40000

/-- Here both failures are reported to the caller, the second one by `errno`. -/
def readDirContent : Listing → Dirs
  | .openFails => .null
  | .opens names failed =>
      match storeNames maxProcCnt [] names with
      | none => .undefined
      | some dirs => if failed then .null else terminate maxProcCnt dirs

end TlpiExercises.ListFileUsage

namespace TlpiExercises.ProcDirs
open CText

/-- Every name of digits fits its block. -/
def NamesFit (names : List (List UInt8)) : Prop :=
  ∀ d ∈ names.filter isPid, d.length + 1 ≤ blockSize

instance (names : List (List UInt8)) : Decidable (NamesFit names) :=
  inferInstanceAs (Decidable (∀ d ∈ names.filter isPid, d.length + 1 ≤ blockSize))

/-- The names of digits in listing order, and the terminating `NULL`. -/
def listed (names : List (List UInt8)) : List (Option (List UInt8)) :=
  (names.filter isPid).map some ++ [none]

@[simp] theorem listed_length (names : List (List UInt8)) :
    (listed names).length = (names.filter isPid).length + 1 := by
  simp [listed]

@[simp] theorem namesFit_nil : NamesFit [] := by
  simp [NamesFit]

theorem namesFit_cons (d : List UInt8) (names : List (List UInt8)) :
    NamesFit (d :: names) ↔ (isPid d → d.length + 1 ≤ blockSize) ∧ NamesFit names := by
  by_cases hd : isPid d
  · simp [NamesFit, hd]
  · simp [NamesFit, hd]

/-- The loop stays in range exactly if every name fits its block and the names fit the
table, and then it adds the names of digits in order. -/
theorem storeNames_eq_some_iff (maxProcCnt : ℕ) (names dirs out : List (List UInt8))
    (hdirs : dirs.length ≤ maxProcCnt) :
    storeNames maxProcCnt dirs names = some out ↔
      (NamesFit names ∧ dirs.length + (names.filter isPid).length ≤ maxProcCnt) ∧
        out = dirs ++ names.filter isPid := by
  induction names generalizing dirs with
  | nil => simp [storeNames, hdirs, eq_comm]
  | cons d names ih =>
      rw [storeNames, namesFit_cons]
      by_cases hd : isPid d
      · rw [if_pos hd, List.filter_cons_of_pos hd, List.length_cons]
        by_cases hfit : dirs.length < maxProcCnt ∧ d.length + 1 ≤ blockSize
        · rw [if_pos hfit, ih (dirs ++ [d]) (by simp; omega)]
          have hlen : (dirs ++ [d]).length + (names.filter isPid).length =
              dirs.length + ((names.filter isPid).length + 1) := by simp; omega
          rw [hlen, List.append_assoc, List.singleton_append]
          simp [hfit.2]
        · rw [if_neg hfit]
          refine iff_of_false (by simp) fun h => hfit ⟨by omega, h.1.1.1 hd⟩
      · rw [if_neg hd, List.filter_cons_of_neg hd, ih dirs hdirs]
        simp [hd]

/-- The table of the listing is returned if every access is in range. -/
theorem readDirOrExit_opens (maxProcCnt : ℕ) (names : List (List UInt8)) (failed : Bool) :
    readDirOrExit maxProcCnt (.opens names failed) =
      if NamesFit names ∧ (listed names).length ≤ maxProcCnt then .table (listed names)
      else .undefined := by
  have hstored := fun dirs => storeNames_eq_some_iff maxProcCnt names [] dirs (Nat.zero_le _)
  simp only [List.length_nil, Nat.zero_add, List.nil_append] at hstored
  rw [readDirOrExit, listed_length]
  cases hstore : storeNames maxProcCnt [] names with
  | none =>
      rw [if_neg]
      rintro ⟨hfit, hlen⟩
      rw [(hstored _).mpr ⟨⟨hfit, by omega⟩, rfl⟩] at hstore
      contradiction
  | some dirs =>
      obtain ⟨⟨hfit, -⟩, rfl⟩ := (hstored dirs).mp hstore
      simp only [terminate, hfit, true_and, Nat.lt_iff_add_one_le, listed]

theorem readDirOrExit_eq_table_iff (maxProcCnt : ℕ) (names : List (List UInt8)) (failed : Bool)
    (t : List (Option (List UInt8))) :
    readDirOrExit maxProcCnt (.opens names failed) = .table t ↔
      (NamesFit names ∧ (listed names).length ≤ maxProcCnt) ∧ t = listed names := by
  rw [readDirOrExit_opens]
  split_ifs with hfit
  · rw [and_iff_right hfit, Dirs.table.injEq, eq_comm]
  · exact iff_of_false nofun fun h => hfit h.1

theorem usage_eq_readDirOrExit (names : List (List UInt8)) :
    ListFileUsage.readDirContent (.opens names false) =
      readDirOrExit ListFileUsage.maxProcCnt (.opens names false) := by
  simp [ListFileUsage.readDirContent, readDirOrExit]

/-- What each listing and each snapshot needs: a name of digits has at most three of
them, the names and the `NULL` fit the program's table, and the pids are below the size of
the four tables, which is far less than what a pid can be. -/
theorem listing_stored_iff (names : List (List UInt8)) (procs : List ProcessTree.Entry) :
    (ProcessTree.readDirContent (.opens names false) = .table (listed names) ↔
        NamesFit names ∧ (listed names).length ≤ ProcessTree.maxProcCnt) ∧
      (ProcessList.readDirContent (.opens names false) = .table (listed names) ↔
        NamesFit names ∧ (listed names).length ≤ ProcessList.maxProcCnt) ∧
      (ListFileUsage.readDirContent (.opens names false) = .table (listed names) ↔
        NamesFit names ∧ (listed names).length ≤ ListFileUsage.maxProcCnt) ∧
      ((ProcessTree.Tables.empty.collect procs).isSome ↔
        ∀ p ∈ ProcessTree.snapshot procs,
          p.pid < ProcessTree.maxProcCnt ∧ p.ppid < ProcessTree.maxProcCnt) := by
  have htable := fun maxProcCnt => readDirOrExit_eq_table_iff maxProcCnt names false (listed names)
  simp only [and_true] at htable
  refine ⟨htable _, htable _, ?_, ProcessTree.collect_isSome_iff procs⟩
  rw [usage_eq_readDirOrExit]
  exact htable _

/-- The name `1000` does not fit its block, and neither does pid 40000 the tables. -/
theorem four_digits_undefined :
    ProcessTree.readDirContent (.opens [[49, 48, 48, 48]] false) = .undefined ∧
      ProcessList.readDirContent (.opens [[49, 48, 48, 48]] false) = .undefined ∧
      ListFileUsage.readDirContent (.opens [[49, 48, 48, 48]] false) = .undefined ∧
      (ProcessTree.Tables.empty.collect [.read ⟨40000, 1, [], by decide⟩]).isSome = false := by
  decide

end TlpiExercises.ProcDirs
