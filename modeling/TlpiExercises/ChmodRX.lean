import TlpiExercises.Access

/-!
# Permissions for everybody

`chmodrX` lets every class of users read a file, and execute it if it is a directory or if some
class may execute it already. `chmod` changes the low twelve bits of the mode; it is allowed for
the owner of the file and for the superuser.

`readOpts`, which copies the argument to `path[1000]` whatever its length, is left out: the path is
taken to fit, and both calls to lead to the same file.
-/
namespace TlpiExercises.ChmodRX
open Access

/-- The bits that `chmod` changes. -/
abbrev permBits : BitVec 32 := 0o7777

/-- `S_IXUSR | S_IXGRP | S_IXOTH`. -/
abbrev executeFlags : BitVec 32 := 0o100 ||| 0o010 ||| 0o001

/-- `newmode`. -/
def newMode (st : Stat) : BitVec 32 :=
  let mode := st.stMode ||| 0o400 ||| 0o040 ||| 0o004
  if st.isDir ∨ st.stMode &&& executeFlags ≠ 0 then mode ||| executeFlags else mode

/-- What `chmod` does to a file, for a process that may do it. -/
def chmod (c : Credentials) (st : Stat) (mode : BitVec 32) : Option Stat :=
  if c.euid = 0 ∨ c.euid = st.stUid then
    some { st with stMode := (st.stMode &&& ~~~permBits) ||| (mode &&& permBits) }
  else none

/-- The file at the end of the program, `none` if a call failed. -/
def main (c : Credentials) (stat : Except Errno Stat) : Option Stat :=
  match stat with
  | .error _ => none
  | .ok st => chmod c st (newMode st)

/-- The file afterwards. -/
def opened (st : Stat) : Stat :=
  { st with stMode := (st.stMode &&& ~~~permBits) ||| (newMode st &&& permBits) }

section Bits

variable {st : Stat} {i : ℕ}

theorem twoPow_and_ne_zero (hi : i < 32) (m : BitVec 32) :
    BitVec.twoPow 32 i &&& m ≠ 0 ↔ m.getLsbD i := by
  have hne : BitVec.twoPow 32 i ≠ 0 := by
    intro h
    have hbit := congrArg (·.getLsbD i) h
    simp [hi] at hbit
  rw [BitVec.twoPow_and]
  split_ifs with hbit
  · exact iff_of_true hne hbit
  · exact iff_of_false (by simp) hbit

theorem getLsbD_opened_low (hi : i < 12) :
    (opened st).stMode.getLsbD i = (newMode st).getLsbD i := by
  unfold opened
  interval_cases i <;> simp

theorem getLsbD_opened_high (hi : 12 ≤ i) :
    (opened st).stMode.getLsbD i = st.stMode.getLsbD i := by
  by_cases hlt : i < 32
  · unfold opened
    interval_cases i <;> simp
  · rw [BitVec.getLsbD_of_ge _ _ (by omega), BitVec.getLsbD_of_ge _ _ (by omega)]

theorem isDir_opened : (opened st).isDir = st.isDir := by
  have htype : (opened st).stMode &&& 0o170000 = st.stMode &&& 0o170000 := by
    apply BitVec.eq_of_getLsbD_eq
    intro i hi
    rw [BitVec.getLsbD_and, BitVec.getLsbD_and]
    by_cases hlow : i < 12
    · have hbit : (0o170000 : BitVec 32).getLsbD i = false := by interval_cases i <;> rfl
      rw [hbit, Bool.and_false, Bool.and_false]
    · rw [getLsbD_opened_high (by omega)]
  unfold Stat.isDir
  rw [htype]

theorem getLsbD_newMode_read (hi : i = 8 ∨ i = 5 ∨ i = 2) : (newMode st).getLsbD i := by
  unfold newMode
  rcases hi with rfl | rfl | rfl <;> split_ifs <;> simp

theorem getLsbD_newMode_write (hi : i = 7 ∨ i = 4 ∨ i = 1) :
    (newMode st).getLsbD i = st.stMode.getLsbD i := by
  unfold newMode
  rcases hi with rfl | rfl | rfl <;> split_ifs <;> simp

theorem getLsbD_newMode_execute (hi : i = 6 ∨ i = 3 ∨ i = 0) :
    (newMode st).getLsbD i ↔ st.RootExecutes := by
  have hflag : executeFlags.getLsbD i := by rcases hi with rfl | rfl | rfl <;> rfl
  unfold newMode
  split_ifs with hexec
  · refine iff_of_true ?_ hexec
    rw [BitVec.getLsbD_or, hflag, Bool.or_true]
  · refine iff_of_false ?_ hexec
    -- no execute bit of the file is set
    have hnone : st.stMode &&& executeFlags = 0 := not_not.mp (not_or.mp hexec).2
    have hbit : st.stMode.getLsbD i = false := by
      have hand := congrArg (·.getLsbD i) hnone
      simpa [hflag] using hand
    rcases hi with rfl | rfl | rfl <;> simpa using hbit

theorem getLsbD_opened_execute (hi : i = 6 ∨ i = 3 ∨ i = 0) :
    (opened st).stMode.getLsbD i ↔ st.RootExecutes := by
  rw [getLsbD_opened_low (by omega), getLsbD_newMode_execute hi]

theorem rootExecutes_opened : (opened st).RootExecutes ↔ st.RootExecutes := by
  constructor
  · rintro (hdir | hexec)
    · exact .inl (isDir_opened ▸ hdir)
    · by_contra hnot
      refine hexec (BitVec.eq_of_getLsbD_eq fun i hi => ?_)
      rw [BitVec.getLsbD_and]
      by_cases hx : i = 6 ∨ i = 3 ∨ i = 0
      · have hbit : (opened st).stMode.getLsbD i = false := by
          simpa using mt (getLsbD_opened_execute hx).mp hnot
        simp [hbit]
      · have hmask : (0o111 : BitVec 32).getLsbD i = false := by interval_cases i <;> simp_all
        rw [hmask, Bool.and_false]
        exact BitVec.getLsbD_zero.symm
  · intro hexec
    refine .inr fun hnone => ?_
    have hbit := congrArg (·.getLsbD 0) hnone
    have hset := (getLsbD_opened_execute (i := 0) (by simp)).mpr hexec
    rw [BitVec.getLsbD_and, hset] at hbit
    exact absurd hbit (by decide)

end Bits

section Classes

variable {st : Stat} {b : Bits}

/-- The bits of a class at some place of the mode. -/
def Bits.At (b : Bits) (i : ℕ) : Prop :=
  b = ⟨BitVec.twoPow 32 (i + 2), BitVec.twoPow 32 (i + 1), BitVec.twoPow 32 i⟩ ∧
    (i = 6 ∨ i = 3 ∨ i = 0)

theorem kernelBits_at (c : Credentials) (st : Stat) : ∃ i, Bits.At (kernelBits c st) i := by
  unfold kernelBits
  split_ifs
  · exact ⟨6, rfl, by simp⟩
  · exact ⟨3, rfl, by simp⟩
  · exact ⟨0, rfl, by simp⟩

/-- The answer of a class afterwards. -/
theorem grant_opened {i : ℕ} (hb : Bits.At b i) (mode : BitVec 32) :
    b.Grant (opened st) mode ↔ b.Grant st (mode &&& wOk) ∧ (mode &&& xOk ≠ 0 → st.RootExecutes) := by
  obtain ⟨rfl, hi⟩ := hb
  have hr : mode &&& wOk &&& rOk = 0 := by
    rw [BitVec.and_assoc]
    simp
  have hw : mode &&& wOk &&& wOk = mode &&& wOk := by
    rw [BitVec.and_assoc, BitVec.and_self]
  have hx : mode &&& wOk &&& xOk = 0 := by
    rw [BitVec.and_assoc]
    simp
  have hread : (opened st).stMode.getLsbD (i + 2) := by
    rw [getLsbD_opened_low (by omega)]
    exact getLsbD_newMode_read (by omega)
  have hwrite : (opened st).stMode.getLsbD (i + 1) = st.stMode.getLsbD (i + 1) := by
    rw [getLsbD_opened_low (by omega), getLsbD_newMode_write (by omega)]
  unfold Access.Bits.Grant
  simp only [hr, hw, hx, twoPow_and_ne_zero (show i + 2 < 32 by omega),
    twoPow_and_ne_zero (show i + 1 < 32 by omega), twoPow_and_ne_zero (show i < 32 by omega), hread,
    hwrite, getLsbD_opened_execute hi]
  simp

end Classes

/-- After the program every process may read the file, may write it as before, and may execute it
exactly if the file is a directory or some class could execute it before. -/
theorem access_after {c : Credentials} {st st' : Stat} (h : main c (.ok st) = some st')
    (c' : Credentials) (mode : BitVec 32) :
    KernelGrants c' st' mode ↔
      KernelGrants c' st (mode &&& wOk) ∧ (mode &&& xOk ≠ 0 → st.RootExecutes) := by
  obtain ⟨-, hst'⟩ := Option.ite_none_right_eq_some.mp h
  obtain rfl : opened st = st' := Option.some.inj hst'
  unfold KernelGrants
  by_cases hroot : c'.euid = 0
  · have hx : mode &&& wOk &&& xOk = 0 := by
      rw [BitVec.and_assoc]
      simp
    simp only [if_pos hroot, rootExecutes_opened, hx]
    simp
  · obtain ⟨i, hi⟩ := kernelBits_at c' st
    simp only [if_neg hroot]
    exact grant_opened hi mode

/-- A file that only its owner could read and write. -/
def privateFile : Stat := ⟨1000, 1000, 0o100600⟩

theorem access_after_private :
    ∃ st', main ⟨1000, 1000, []⟩ (.ok privateFile) = some st' ∧
      KernelGrants ⟨1001, 1001, []⟩ st' rOk ∧ ¬ KernelGrants ⟨1001, 1001, []⟩ st' wOk := by
  have hmain : main ⟨1000, 1000, []⟩ (.ok privateFile) = some (opened privateFile) := rfl
  exact ⟨_, hmain, (access_after hmain _ _).mpr (by decide),
    mt (access_after hmain _ _).mp (by decide)⟩

end TlpiExercises.ChmodRX
