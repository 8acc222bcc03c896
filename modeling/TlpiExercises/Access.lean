import Mathlib.Tactic

/-!
# Access checks with effective ids

`myaccess` compares the effective user and group id with the owner and the group of a file and
tests the permission bits of the first class that matches. The rule of the kernel, which it is
meant to follow, also counts the supplementary groups, and lets the superuser execute a file
only if someone may.
-/
namespace TlpiExercises.Access

/-- `R_OK`, `W_OK` and `X_OK`. -/
abbrev rOk : BitVec 32 := 4
abbrev wOk : BitVec 32 := 2
abbrev xOk : BitVec 32 := 1

/-- The permission bits of one class of users. -/
structure Bits where
  read : BitVec 32
  write : BitVec 32
  execute : BitVec 32

/-- `S_IRUSR`, `S_IWUSR`, `S_IXUSR`, and the same for the group and the others. -/
def ownerBits : Bits := ⟨0o400, 0o200, 0o100⟩
def groupBits : Bits := ⟨0o040, 0o020, 0o010⟩
def otherBits : Bits := ⟨0o004, 0o002, 0o001⟩

/-- `struct stat`. -/
structure Stat where
  stUid : UInt32
  stGid : UInt32
  stMode : BitVec 32

/-- The credentials of the process. -/
structure Credentials where
  euid : UInt32
  egid : UInt32
  groups : List UInt32

inductive Errno where
  | enoent
  | eacces
  | other
  deriving DecidableEq, Repr

/-- The function returns, with `errno` if it was set, or ends the program. -/
inductive Ending where
  | returned (ret : Int32) (errno : Option Errno)
  | exited
  deriving DecidableEq, Repr

/-- The class whose bits `myaccess` tests. -/
def bitsOf (c : Credentials) (st : Stat) : Bits :=
  if c.euid = st.stUid then ownerBits
  else if c.egid = st.stGid then groupBits
  else otherBits

def myaccess (c : Credentials) (stat : Except Errno Stat) (mode : BitVec 32) : Ending :=
  match stat with
  | .error errno => if errno = .enoent then .returned (-1) (some .enoent) else .exited
  | .ok st =>
      if c.euid = 0 then .returned 0 none
      else
        let bits := bitsOf c st
        if mode &&& rOk ≠ 0 ∧ bits.read &&& st.stMode = 0 then .returned (-1) (some .eacces)
        else if mode &&& wOk ≠ 0 ∧ bits.write &&& st.stMode = 0 then .returned (-1) (some .eacces)
        else if mode &&& xOk ≠ 0 ∧ bits.execute &&& st.stMode = 0 then .returned (-1) (some .eacces)
        else .returned 0 none

/-- `S_ISDIR`. -/
def Stat.isDir (st : Stat) : Bool := st.stMode &&& 0o170000 = 0o040000

/-- The bits of the class grant every access that is requested. -/
def Bits.Grant (b : Bits) (st : Stat) (mode : BitVec 32) : Prop :=
  (mode &&& rOk ≠ 0 → b.read &&& st.stMode ≠ 0) ∧ (mode &&& wOk ≠ 0 → b.write &&& st.stMode ≠ 0) ∧
    (mode &&& xOk ≠ 0 → b.execute &&& st.stMode ≠ 0)

instance (b : Bits) (st : Stat) (mode : BitVec 32) : Decidable (b.Grant st mode) :=
  inferInstanceAs (Decidable (_ ∧ _ ∧ _))

/-- The class that decides in the kernel. -/
def kernelBits (c : Credentials) (st : Stat) : Bits :=
  if c.euid = st.stUid then ownerBits
  else if st.stGid = c.egid ∨ st.stGid ∈ c.groups then groupBits
  else otherBits

/-- The superuser may execute the file. -/
def Stat.RootExecutes (st : Stat) : Prop := st.isDir ∨ st.stMode &&& 0o111 ≠ 0

instance (st : Stat) : Decidable st.RootExecutes := inferInstanceAs (Decidable (_ ∨ _))

/-- The rule of the kernel. -/
def KernelGrants (c : Credentials) (st : Stat) (mode : BitVec 32) : Prop :=
  if c.euid = 0 then mode &&& xOk ≠ 0 → st.RootExecutes else (kernelBits c st).Grant st mode

instance (c : Credentials) (st : Stat) (mode : BitVec 32) : Decidable (KernelGrants c st mode) :=
  inferInstanceAs (Decidable
    (if c.euid = 0 then mode &&& xOk ≠ 0 → st.RootExecutes else (kernelBits c st).Grant st mode))

/-- Without the special case of the superuser, the bits of the class decide. -/
theorem myaccess_eq_zero_iff {c : Credentials} (h : c.euid ≠ 0) (st : Stat) (mode : BitVec 32) :
    (∃ errno, myaccess c (.ok st) mode = .returned 0 errno) ↔ (bitsOf c st).Grant st mode := by
  have hfail : ¬ ∃ errno, Ending.returned (-1) (some .eacces) = .returned 0 errno := by
    simp
  unfold myaccess Bits.Grant
  simp only [if_neg h]
  split_ifs with hread hwrite hexecute
  · exact iff_of_false hfail (by tauto)
  · exact iff_of_false hfail (by tauto)
  · exact iff_of_false hfail (by tauto)
  · exact iff_of_true ⟨none, rfl⟩ (by tauto)

/-- `myaccess` grants what the kernel grants exactly if, for the superuser, execution is not
requested or possible, and for other users, the file's group is not a supplementary group that
decides, or the bits of the group and of the others give the same answer. -/
theorem myaccess_like_kernel_iff (c : Credentials) (st : Stat) (mode : BitVec 32) :
    ((∃ errno, myaccess c (.ok st) mode = .returned 0 errno) ↔ KernelGrants c st mode) ↔
      if c.euid = 0 then mode &&& xOk ≠ 0 → st.RootExecutes
      else c.euid = st.stUid ∨ c.egid = st.stGid ∨ st.stGid ∉ c.groups ∨
        (groupBits.Grant st mode ↔ otherBits.Grant st mode) := by
  by_cases hroot : c.euid = 0
  · have hzero : ∃ errno, myaccess c (.ok st) mode = .returned 0 errno :=
      ⟨none, if_pos hroot⟩
    unfold KernelGrants
    rw [if_pos hroot, if_pos hroot, iff_true_left hzero]
  · unfold KernelGrants
    rw [if_neg hroot, if_neg hroot, myaccess_eq_zero_iff hroot]
    unfold bitsOf kernelBits
    by_cases howner : c.euid = st.stUid
    · simp [howner]
    by_cases hgroup : c.egid = st.stGid
    · simp [howner, hgroup]
    · by_cases hmem : st.stGid ∈ c.groups
      · simp only [howner, hgroup, hmem, Ne.symm hgroup, if_false, if_true, or_true, not_true_eq_false,
          false_or]
        exact iff_comm
      · simp [howner, hgroup, hmem, Ne.symm hgroup]

/-- A process of user 1000 in the supplementary group 5. -/
def member : Credentials := ⟨1000, 1000, [5]⟩

/-- The group 5 may read the file, and the superuser may not execute it. -/
theorem supplementary_group_and_root :
    (myaccess member (.ok ⟨0, 5, 0o100040⟩) rOk = .returned (-1) (some .eacces) ∧
        KernelGrants member ⟨0, 5, 0o100040⟩ rOk) ∧
      myaccess ⟨0, 0, []⟩ (.ok ⟨0, 0, 0o100644⟩) xOk = .returned 0 none ∧
        ¬ KernelGrants ⟨0, 0, []⟩ ⟨0, 0, 0o100644⟩ xOk := by
  decide

end TlpiExercises.Access
