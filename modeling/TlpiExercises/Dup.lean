import Mathlib.Tactic

/-!
# Duplicating descriptors with `fcntl` and `close`

The descriptor table maps numbers to open file descriptions, which are only ever copied, so
their type is arbitrary. `fcntl` with `F_DUPFD` takes the lowest free number that is not below
its argument, and fails if the argument or that number is not below the limit. A descriptor
may be open above the limit, since the limit can be lowered while it is open.
-/
namespace TlpiExercises.Dup

inductive Errno where
  | ebadf
  | einval
  | emfile
  deriving DecidableEq, Repr

/-- The descriptors of a process and their limit, with `errno`. -/
structure Process (α : Type*) where
  table : ℕ → Option α
  limit : ℕ
  limit_le : limit ≤ 2 ^ 31
  errno : Option Errno

/-- How a function ends: it returns, or it calls `exit`. -/
inductive Ending (α : Type*) where
  | returned (ret : Int32) (p : Process α)
  | exited (p : Process α)

variable {α : Type*}

/-- The open file description of a descriptor. -/
def Process.file (p : Process α) (fd : Int32) : Option α :=
  if 0 ≤ fd.toInt then p.table fd.toInt.toNat else none

/-- The lowest free number from `first` on. -/
def Process.lowestFree (p : Process α) (first : ℕ) : Option ℕ :=
  (List.range' first (p.limit - first)).find? fun k => (p.table k).isNone

def close (p : Process α) (fd : Int32) : Process α :=
  match p.file fd with
  | none => { p with errno := some .ebadf }
  | some _ => { p with table := Function.update p.table fd.toInt.toNat none }

/-- `fcntl(fd, F_DUPFD, arg)`. -/
def fcntlDupFd (p : Process α) (fd arg : Int32) : Int32 × Process α :=
  match p.file fd with
  | none => (-1, { p with errno := some .ebadf })
  | some file =>
      if 0 ≤ arg.toInt ∧ arg.toInt < p.limit then
        match p.lowestFree arg.toInt.toNat with
        | none => (-1, { p with errno := some .emfile })
        | some k => (Int32.ofNat k, { p with table := Function.update p.table k (some file) })
      else (-1, { p with errno := some .einval })

def duplicate (p : Process α) (fd : Int32) : Ending α :=
  match p.file fd with
  | none => .returned (-1) { p with errno := some .ebadf }
  | some _ =>
      let (newFd, p') := fcntlDupFd p fd 0
      if newFd = -1 then .exited p' else .returned newFd p'

def duplicate2 (p : Process α) (fd fdNumber : Int32) : Ending α :=
  match p.file fd with
  | none => .returned (-1) { p with errno := some .ebadf }
  | some _ =>
      let (newFd, p') := fcntlDupFd (close p fdNumber) fd fdNumber
      if newFd ≠ fdNumber then .exited p' else .returned newFd p'

/-- The number can be used for a descriptor. -/
def Process.Valid (p : Process α) (fd : Int32) : Prop := 0 ≤ fd.toInt ∧ fd.toInt < p.limit

/-- What `dup2` does. -/
structure Dup2 (p : Process α) (fd fdNumber : Int32) (r : Ending α) : Prop where
  closed : p.file fd = none →
    ∃ p', r = .returned (-1) p' ∧ p'.errno = some .ebadf ∧ p'.table = p.table
  same : ∀ file, p.file fd = some file → fdNumber = fd →
    ∃ p', r = .returned fd p' ∧ p'.table = p.table
  valid : ∀ file, p.file fd = some file → fdNumber ≠ fd → p.Valid fdNumber →
    ∃ p', r = .returned fdNumber p' ∧
      p'.table = Function.update p.table fdNumber.toInt.toNat (some file)
  invalid : ∀ file, p.file fd = some file → fdNumber ≠ fd → ¬ p.Valid fdNumber →
    ∃ p', r = .returned (-1) p' ∧ p'.table = p.table

section Calls

variable {p : Process α} {fd : Int32} {file : α}

theorem toInt_of_file (h : p.file fd = some file) :
    0 ≤ fd.toInt ∧ p.table fd.toInt.toNat = some file := by
  unfold Process.file at h
  split at h
  next hfd => exact ⟨hfd, h⟩
  next => cases h

theorem ofNat_toNat (h : 0 ≤ fd.toInt) : Int32.ofNat fd.toInt.toNat = fd := by
  apply Int32.toInt_inj.mp
  have hlt := fd.toInt_lt
  rw [Int32.toInt_ofNat_of_lt (by omega), Int.toNat_of_nonneg h]

/-- The lowest free number is free and below the limit, and all numbers before it are taken. -/
theorem lowestFree_eq_some_iff {first k : ℕ} :
    p.lowestFree first = some k ↔ p.table k = none ∧ (first ≤ k ∧ k < p.limit) ∧
      ∀ j, first ≤ j → j < k → (p.table j).isSome := by
  unfold Process.lowestFree
  rw [List.find?_range'_eq_some, List.mem_range'_1, Option.isNone_iff_eq_none]
  have hmem : (first ≤ k ∧ k < first + (p.limit - first)) ↔ first ≤ k ∧ k < p.limit := by omega
  rw [hmem]
  simp

theorem lowestFree_self {k : ℕ} (hfree : p.table k = none) (hk : k < p.limit) :
    p.lowestFree k = some k :=
  lowestFree_eq_some_iff.mpr ⟨hfree, ⟨le_rfl, hk⟩, fun j hle hlt => absurd hle (by omega)⟩

@[simp] theorem close_limit (p : Process α) (fd : Int32) : (close p fd).limit = p.limit := by
  unfold close
  split <;> rfl

theorem close_table (p : Process α) (h : 0 ≤ fd.toInt) :
    (close p fd).table = Function.update p.table fd.toInt.toNat none := by
  unfold close
  split
  next hfile =>
    have hnone : p.table fd.toInt.toNat = none := by rwa [Process.file, if_pos h] at hfile
    rw [← hnone]
    exact (Function.update_eq_self _ _).symm
  next => rfl

theorem close_table_of_neg (p : Process α) (h : fd.toInt < 0) : (close p fd).table = p.table := by
  unfold close
  rw [Process.file, if_neg (by omega)]

/-- Closing one descriptor leaves the others open. -/
theorem file_close_of_ne {fdNumber : Int32} (hne : fdNumber ≠ fd) :
    (close p fdNumber).file fd = p.file fd := by
  unfold Process.file
  split
  next hfd =>
    by_cases hnum : 0 ≤ fdNumber.toInt
    · have hindex : fd.toInt.toNat ≠ fdNumber.toInt.toNat := by
        intro heq
        exact hne (Int32.toInt_inj.mp (by omega))
      rw [close_table p hnum, Function.update_of_ne hindex]
    · rw [close_table_of_neg p (by omega)]
  next => rfl

theorem file_close_self (p : Process α) (fd : Int32) : (close p fd).file fd = none := by
  unfold Process.file
  split
  next hfd => rw [close_table p hfd, Function.update_self]
  next => rfl

end Calls

section Duplicating

variable {p : Process α} {fd fdNumber : Int32} {file : α}

/-- `duplicate` returns the lowest free descriptor, and exits if there is none. -/
theorem duplicate_eq (h : p.file fd = some file) :
    (∃ k p', p.lowestFree 0 = some k ∧ duplicate p fd = .returned (Int32.ofNat k) p' ∧
        p'.table = Function.update p.table k (some file)) ∨
      (p.lowestFree 0 = none ∧ ∃ p', duplicate p fd = .exited p' ∧ p'.table = p.table) := by
  have hzero : (0 : Int32).toInt = 0 := by decide
  unfold duplicate fcntlDupFd
  rw [h]
  simp only [hzero, le_refl, true_and, Int.toNat_zero, Nat.cast_pos]
  cases hfree : p.lowestFree 0 with
  | none =>
      refine .inr ⟨rfl, ?_⟩
      split <;> exact ⟨_, rfl, rfl⟩
  | some k =>
      obtain ⟨-, ⟨-, hk⟩, -⟩ := lowestFree_eq_some_iff.mp hfree
      have hlimit := p.limit_le
      have hne : Int32.ofNat k ≠ -1 := by
        intro heq
        have hint := congrArg Int32.toInt heq
        have hminus : (-1 : Int32).toInt = -1 := by decide
        rw [Int32.toInt_ofNat_of_lt (by omega), hminus] at hint
        omega
      simp only [if_pos (show 0 < p.limit by omega), if_neg hne]
      exact .inl ⟨k, _, rfl, rfl, rfl⟩

/-- A descriptor is closed before it is duplicated to itself. -/
theorem duplicate2_self (h : p.file fd = some file) :
    ∃ p', duplicate2 p fd fd = .exited p' := by
  have hfd := (toInt_of_file h).1
  have hne : (-1 : Int32) ≠ fd := by
    rintro rfl
    exact absurd hfd (by decide)
  unfold duplicate2 fcntlDupFd
  rw [h, file_close_self]
  simp only [ne_eq, hne, not_false_eq_true, if_true]
  exact ⟨_, rfl⟩

theorem duplicate2_of_valid (h : p.file fd = some file) (hne : fdNumber ≠ fd)
    (hvalid : p.Valid fdNumber) :
    ∃ p', duplicate2 p fd fdNumber = .returned fdNumber p' ∧
      p'.table = Function.update p.table fdNumber.toInt.toNat (some file) := by
  obtain ⟨hpos, hlt⟩ := hvalid
  have htable := close_table p hpos
  have hlowest : (close p fdNumber).lowestFree fdNumber.toInt.toNat =
      some fdNumber.toInt.toNat := by
    apply lowestFree_self
    · rw [htable, Function.update_self]
    · rw [close_limit]
      omega
  unfold duplicate2 fcntlDupFd
  rw [h, file_close_of_ne hne, h]
  simp only [close_limit, hpos, hlt, and_self, if_true, hlowest, ofNat_toNat hpos, ne_eq,
    not_true_eq_false, if_false]
  exact ⟨_, rfl, by rw [htable, Function.update_idem]⟩

/-- A number that is not valid is compared with the -1 that `fcntl` returns. -/
theorem duplicate2_of_not_valid (h : p.file fd = some file) (hne : fdNumber ≠ fd)
    (hvalid : ¬ p.Valid fdNumber) :
    ∃ p', duplicate2 p fd fdNumber =
        (if fdNumber = -1 then .returned (-1) p' else .exited p') ∧
      p'.table = (close p fdNumber).table := by
  have hrange : ¬ (0 ≤ fdNumber.toInt ∧ fdNumber.toInt < (close p fdNumber).limit) := by
    rw [close_limit]
    exact hvalid
  unfold duplicate2 fcntlDupFd
  rw [h, file_close_of_ne hne, h]
  simp only [if_neg hrange]
  refine ⟨{ close p fdNumber with errno := some .einval }, ?_, rfl⟩
  by_cases hminus : fdNumber = -1
  · subst hminus
    rfl
  · rw [if_neg hminus, if_pos (Ne.symm hminus)]

theorem dup2_of_not_open (h : p.file fd = none) : Dup2 p fd fdNumber (duplicate2 p fd fdNumber) := by
  refine ⟨fun _ => ?_, ?_, ?_, ?_⟩
  · unfold duplicate2
    rw [h]
    exact ⟨_, rfl, rfl, rfl⟩
  all_goals
    intro file hfile
    simp [h] at hfile

theorem not_dup2_self (h : p.file fd = some file) : ¬ Dup2 p fd fd (duplicate2 p fd fd) := by
  intro hdup
  obtain ⟨p', hrun⟩ := duplicate2_self h
  obtain ⟨p'', heq, -⟩ := hdup.same file h rfl
  rw [hrun] at heq
  cases heq

theorem dup2_of_valid (h : p.file fd = some file) (hne : fdNumber ≠ fd)
    (hvalid : p.Valid fdNumber) : Dup2 p fd fdNumber (duplicate2 p fd fdNumber) := by
  refine ⟨fun hnone => absurd (hnone.symm.trans h) (by simp), fun _ _ heq => absurd heq hne, ?_,
    fun _ _ _ hnot => absurd hvalid hnot⟩
  intro file' hfile' _ _
  obtain rfl : file = file' := Option.some.inj (h.symm.trans hfile')
  exact duplicate2_of_valid h hne hvalid

theorem dup2_iff_of_not_valid (h : p.file fd = some file) (hne : fdNumber ≠ fd)
    (hvalid : ¬ p.Valid fdNumber) :
    Dup2 p fd fdNumber (duplicate2 p fd fdNumber) ↔ fdNumber = -1 := by
  obtain ⟨p', hrun, htable⟩ := duplicate2_of_not_valid h hne hvalid
  by_cases hminus : fdNumber = -1
  · rw [if_pos hminus] at hrun
    rw [close_table_of_neg p (by rw [hminus]; decide)] at htable
    refine iff_of_true ⟨fun hnone => absurd (hnone.symm.trans h) (by simp),
      fun _ _ heq => absurd heq hne, fun _ _ _ hyes => absurd hyes hvalid, ?_⟩ hminus
    exact fun _ _ _ _ => ⟨p', hrun, htable⟩
  · rw [if_neg hminus] at hrun
    refine iff_of_false (fun hdup => ?_) hminus
    obtain ⟨p'', heq, -⟩ := hdup.invalid file h hne hvalid
    rw [hrun] at heq
    cases heq

end Duplicating

/-- `duplicate2` acts as `dup2` exactly if `fd` is not open, or `fdNumber` is another valid
number, or -1. -/
theorem duplicate2_like_dup2_iff (p : Process α) (fd fdNumber : Int32) :
    Dup2 p fd fdNumber (duplicate2 p fd fdNumber) ↔
      p.file fd = none ∨ (fdNumber ≠ fd ∧ p.Valid fdNumber) ∨ fdNumber = -1 := by
  cases h : p.file fd with
  | none => exact iff_of_true (dup2_of_not_open h) (.inl rfl)
  | some file =>
      simp only [reduceCtorEq, false_or]
      by_cases hsame : fdNumber = fd
      · subst hsame
        refine iff_of_false (not_dup2_self h) ?_
        rintro (⟨hne, -⟩ | rfl)
        · exact hne rfl
        · exact absurd (toInt_of_file h).1 (by decide)
      · by_cases hvalid : p.Valid fdNumber
        · exact iff_of_true (dup2_of_valid h hsame hvalid) (.inl ⟨hsame, hvalid⟩)
        · rw [dup2_iff_of_not_valid h hsame hvalid]
          simp [hvalid]

/-- Descriptors 0, 1 and 2 on a terminal. -/
def terminal : Process Unit := ⟨fun k => if k < 3 then some () else none, 1024, by decide, none⟩

/-- Duplicating a descriptor to itself closes it and ends the process. -/
theorem duplicate2_not_dup2 :
    terminal.file 1 = some () ∧ ∃ p', duplicate2 terminal 1 1 = .exited p' ∧ p'.file 1 = none :=
  ⟨rfl, _, rfl, rfl⟩

end TlpiExercises.Dup
