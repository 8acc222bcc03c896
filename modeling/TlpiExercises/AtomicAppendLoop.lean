import TlpiExercises.AtomicAppend
import TlpiExercises.CText

/-!
# The write loop of `atomic-append`

The loop for one process and any command line. `write` fails, or it returns how many of the
bytes it was asked for were written: at least one if it was asked for any. It fails when it is
asked for more than an `ssize_t` counts, which is the case for a negative buffer size; the
buffer is then NULL as well.
-/
namespace TlpiExercises.AtomicAppend
open CText

/-- What `getopt` returns, with `optarg`. -/
inductive Opt where
  | n (optarg : List UInt8)
  | a
  | b (optarg : List UInt8)
  | h
  | other
  deriving DecidableEq, Repr

def atol (s : List UInt8) : Int64 := Int64.ofInt (strtol s)

/-- The loop over the options, `none` when the program exits. -/
def readOptsLoop : List Opt → Args → Option Args
  | [], args => some args
  | .n optarg :: opts, args => readOptsLoop opts { args with bytes := atol optarg }
  | .a :: opts, args => readOptsLoop opts { args with append := true }
  | .b optarg :: opts, args => readOptsLoop opts { args with bufferSize := atoi optarg }
  | .h :: _, _ => none
  | .other :: _, _ => none

/-- The options of a command line of `argc` words. -/
def readOpts (argc : ℕ) (opts : List Opt) : Option Args :=
  if argc < 2 then none else readOptsLoop opts ⟨false, 10, 1⟩

/-- The loop: at its top with the bytes written so far, or how it ended. `overflow` is an
`i += cnt` that an `int` does not hold. -/
inductive Loop where
  | top (i : Int32) (written : ℕ)
  | done (written : ℕ)
  | failed
  | overflow
  deriving DecidableEq, Repr

/-- One pass through the loop, in which `write` returns this or fails. -/
def Args.pass (a : Args) (reply : Option ℕ) : Loop → Loop
  | .top i written =>
      if i.toInt64 < a.bytes then
        match reply with
        | none => .failed
        | some cnt =>
            if i.toInt + cnt < 2 ^ 31 then .top (i + Int32.ofInt cnt) (written + cnt) else .overflow
      else .done written
  | s => s

/-- The loop after this many passes. -/
def Args.run (a : Args) (replies : ℕ → Option ℕ) : ℕ → Loop
  | 0 => .top 0 0
  | k + 1 => a.pass (replies k) (a.run replies k)

/-- What `write` may return when it is asked for `count` bytes. -/
def Allowed (count : ℕ) : Option ℕ → Prop
  | none => True
  | some cnt => count < 2 ^ 63 ∧ cnt ≤ count ∧ (0 < count → 0 < cnt)

/-- These are results of the calls of `write` that the loop makes. -/
def Args.Valid (a : Args) (replies : ℕ → Option ℕ) : Prop :=
  ∀ k i written, a.run replies k = .top i written → i.toInt64 < a.bytes →
    Allowed (a.count i) (replies k)

/-- However `write` behaves, the loop ends, with all bytes written unless a call failed, and
`i` stays an `int`. -/
def Args.LoopEnds (a : Args) : Prop :=
  ∀ replies, a.Valid replies →
    (∃ k, a.run replies k = .failed ∨ a.run replies k = .done a.bytes.toInt.toNat) ∧
      ∀ k, a.run replies k ≠ .overflow

section Passes

variable {a : Args} {replies : ℕ → Option ℕ}

theorem pass_of_ge {i : Int32} (h : a.bytes.toInt ≤ i.toInt) (reply : Option ℕ) (written : ℕ) :
    a.pass reply (.top i written) = .done written := by
  have hend : ¬ i.toInt64 < a.bytes := by
    rw [Args.toInt_lt]
    omega
  simp only [Args.pass, if_neg hend]

theorem pass_none {i : Int32} (h : i.toInt < a.bytes.toInt) (written : ℕ) :
    a.pass none (.top i written) = .failed := by
  rw [Args.pass, if_pos (Args.toInt_lt.mpr h)]

theorem pass_some {i : Int32} (h : i.toInt < a.bytes.toInt) (cnt written : ℕ) :
    a.pass (some cnt) (.top i written) =
      if i.toInt + cnt < 2 ^ 31 then .top (i + Int32.ofInt cnt) (written + cnt) else .overflow := by
  rw [Args.pass, if_pos (Args.toInt_lt.mpr h)]

theorem toInt_add_ofInt {i : Int32} {cnt : ℕ} (h₀ : 0 ≤ i.toInt) (h : i.toInt + cnt < 2 ^ 31) :
    (i + Int32.ofInt cnt).toInt = i.toInt + cnt := by
  have hcnt : (Int32.ofInt cnt).toInt = cnt := Int32.toInt_ofInt_of_le (by omega) (by omega)
  rw [toInt_add_of_le (by omega) (by omega), hcnt]

/-- A negative buffer size asks for more bytes than there are. -/
theorem count_of_negative (hsize : a.bufferSize.toInt < 0) {i : Int32} (h₀ : 0 ≤ i.toInt)
    (h : i.toInt < a.bytes.toInt) : 2 ^ 63 ≤ a.count i := by
  have hless : a.bufferSize.toInt64 < a.bytes - i.toInt64 := by
    rw [Int64.lt_iff_toInt_lt, Args.toInt_sub h₀ h, Int32.toInt_toInt64]
    omega
  have hneg : a.bufferSize.toInt64.toBitVec.toInt < 0 := by
    rw [Int64.toInt_toBitVec, Int32.toInt_toInt64]
    exact hsize
  rw [BitVec.toInt_eq_toNat_cond] at hneg
  rw [Args.count, if_pos hless]
  change 2 ^ 63 ≤ a.bufferSize.toInt64.toBitVec.toNat
  split_ifs at hneg <;> omega

theorem run_of_nothing (h : a.bytes.toInt ≤ 0) (k : ℕ) : a.run replies (k + 1) = .done 0 := by
  induction k with
  | zero => exact pass_of_ge h _ _
  | succ k ih =>
      rw [Args.run, ih]
      rfl

/-- The first write with a negative buffer size fails. -/
theorem run_of_negative (hvalid : a.Valid replies) (hsize : a.bufferSize.toInt < 0)
    (hpos : 0 < a.bytes.toInt) (k : ℕ) : a.run replies (k + 1) = .failed := by
  induction k with
  | zero =>
      have hmore : (0 : Int32).toInt < a.bytes.toInt := hpos
      have hallowed := hvalid 0 0 0 rfl (Args.toInt_lt.mpr hmore)
      have hcount := count_of_negative hsize le_rfl hmore
      cases hreply : replies 0 with
      | none =>
          rw [Args.run, hreply]
          exact pass_none hmore 0
      | some cnt =>
          rw [hreply] at hallowed
          exact absurd hallowed.1 (not_lt.mpr hcount)
  | succ k ih =>
      rw [Args.run, ih]
      rfl

/-- A buffer and a number of bytes that `i` can count: every pass writes more. -/
theorem run_of_small (hvalid : a.Valid replies) (hsize : 0 < a.bufferSize.toInt)
    (hpos : 0 < a.bytes.toInt) (hsmall : a.bytes.toInt < 2 ^ 31) (k : ℕ) :
    a.run replies k = .failed ∨ a.run replies k = .done a.bytes.toInt.toNat ∨
      ∃ i : Int32, a.run replies k = .top i i.toInt.toNat ∧ (k : ℤ) ≤ i.toInt ∧
        i.toInt ≤ a.bytes.toInt := by
  induction k with
  | zero => exact .inr (.inr ⟨0, rfl, le_rfl, hpos.le⟩)
  | succ k ih =>
      rw [Args.run]
      rcases ih with hrun | hrun | ⟨i, hrun, hk, hle⟩
      · exact .inl (by rw [hrun]; rfl)
      · exact .inr (.inl (by rw [hrun]; rfl))
      · rw [hrun]
        by_cases hlt : i.toInt < a.bytes.toInt
        · have hallowed := hvalid k i _ hrun (Args.toInt_lt.mpr hlt)
          cases hreply : replies k with
          | none => exact .inl (pass_none hlt _)
          | some cnt =>
              rw [hreply] at hallowed
              obtain ⟨-, hcnt, hmore⟩ := hallowed
              have hcount := Args.count_eq hsize.le (show 0 ≤ i.toInt by omega) hlt
              have hi : (i + Int32.ofInt cnt).toInt = i.toInt + cnt :=
                toInt_add_ofInt (by omega) (by omega)
              refine .inr (.inr ⟨i + Int32.ofInt cnt, ?_, by omega, by omega⟩)
              rw [pass_some hlt, if_pos (by omega), hi]
              congr 1
              omega
        · refine .inr (.inl ?_)
          rw [pass_of_ge (by omega), show i.toInt = a.bytes.toInt by omega]

/-- Empty writes never get further. -/
theorem run_of_empty (hpos : 0 < a.bytes.toInt) (k : ℕ) :
    a.run (fun _ => some 0) k = .top 0 0 := by
  induction k with
  | zero => rfl
  | succ k ih =>
      have hmore : (0 : Int32).toInt < a.bytes.toInt := hpos
      rw [Args.run, ih, pass_some hmore]
      rfl

/-- Writes of one byte count up to the end of the `int` range. -/
theorem run_of_ones (hlarge : 2 ^ 31 ≤ a.bytes.toInt) (k : ℕ) :
    (∃ i : Int32, a.run (fun _ => some 1) k = .top i k ∧ i.toInt = k) ∨
      a.run (fun _ => some 1) k = .overflow := by
  induction k with
  | zero => exact .inl ⟨0, rfl, rfl⟩
  | succ k ih =>
      rw [Args.run]
      rcases ih with ⟨i, hrun, hi⟩ | hrun
      · have hmax := i.toInt_lt
        rw [hrun, pass_some (by omega)]
        split_ifs with hfits
        · exact .inl ⟨_, rfl, by rw [toInt_add_ofInt (by omega) hfits]; push_cast; omega⟩
        · exact .inr rfl
      · exact .inr (by rw [hrun]; rfl)

theorem valid_empty (hzero : a.bufferSize.toInt = 0) (hpos : 0 < a.bytes.toInt) :
    a.Valid fun _ => some 0 := by
  intro k i written hrun hlt
  obtain ⟨rfl, -⟩ : i = 0 ∧ written = 0 := by simpa [run_of_empty hpos k, eq_comm] using hrun
  have hcount := Args.count_eq hzero.ge le_rfl (Args.toInt_lt.mp hlt)
  exact ⟨by omega, by omega, by omega⟩

theorem valid_ones (hsize : 0 < a.bufferSize.toInt) (hlarge : 2 ^ 31 ≤ a.bytes.toInt) :
    a.Valid fun _ => some 1 := by
  intro k i written hrun hlt
  rcases run_of_ones hlarge k with ⟨j, hrun', hj⟩ | hrun'
  · obtain ⟨rfl, -⟩ : j = i ∧ k = written := by simpa [hrun'] using hrun
    have hcount := Args.count_eq hsize.le (by omega) (Args.toInt_lt.mp hlt)
    have hmax := a.bufferSize.toInt_lt
    have hless := Args.toInt_lt.mp hlt
    exact ⟨by omega, by omega, by omega⟩
  · rw [hrun'] at hrun
    cases hrun

theorem ne_overflow_of_succ {s : Loop} (hs : s ≠ .overflow) (h : ∀ k, a.run replies (k + 1) = s)
    (k : ℕ) : a.run replies k ≠ .overflow := by
  cases k with
  | zero => simp [Args.run]
  | succ k => rwa [h k]

end Passes

/-- The loop ends as it should exactly if there is nothing to write, or the buffer size is
negative, or it is positive and the number of bytes is an `int`. -/
theorem loop_ends_iff (a : Args) :
    a.LoopEnds ↔ a.bytes.toInt ≤ 0 ∨ a.bufferSize.toInt < 0 ∨
      (0 < a.bufferSize.toInt ∧ a.bytes.toInt < 2 ^ 31) := by
  constructor
  · intro hends
    by_contra! hbad
    obtain ⟨hpos, hsize, hlarge⟩ := hbad
    rcases hsize.eq_or_lt with hzero | hsize
    · obtain ⟨⟨k, hk⟩, -⟩ := hends _ (valid_empty hzero.symm hpos)
      simp [run_of_empty hpos k] at hk
    · obtain ⟨⟨k, hk⟩, -⟩ := hends _ (valid_ones hsize (hlarge hsize))
      rcases run_of_ones (hlarge hsize) k with ⟨i, hrun, -⟩ | hrun
      · simp [hrun] at hk
      · simp [hrun] at hk
  · rintro hgood replies hvalid
    by_cases hnothing : a.bytes.toInt ≤ 0
    · have hrun : ∀ k, a.run replies (k + 1) = .done 0 := run_of_nothing hnothing
      refine ⟨⟨1, .inr ?_⟩, ne_overflow_of_succ (by simp) hrun⟩
      rw [hrun, Int.toNat_of_nonpos hnothing]
    have hpos : 0 < a.bytes.toInt := by omega
    rcases hgood.resolve_left hnothing with hneg | ⟨hsize, hsmall⟩
    · have hrun := run_of_negative hvalid hneg hpos
      exact ⟨⟨1, .inl (hrun 0)⟩, ne_overflow_of_succ (by simp) hrun⟩
    · have hrun := run_of_small hvalid hsize hpos hsmall
      refine ⟨⟨a.bytes.toInt.toNat + 1, ?_⟩, ?_⟩
      · rcases hrun (a.bytes.toInt.toNat + 1) with hfailed | hdone | ⟨i, -, hk, hle⟩
        · exact .inl hfailed
        · exact .inr hdone
        · omega
      · intro k
        rcases hrun k with hfailed | hdone | ⟨i, htop, -⟩
        · simp [hfailed]
        · simp [hdone]
        · simp [htop]

/-- With `-b 0` every write is asked for nothing and the loop goes on for ever; with
`-n 2147483648` writes of one byte get `i` over the end of the `int` range. -/
theorem loop_never_ends :
    (∃ a, readOpts 4 [.b [48]] = some a ∧ a.Valid (fun _ => some 0) ∧
      ∀ k, a.run (fun _ => some 0) k = .top 0 0) ∧
    ∃ a, readOpts 4 [.n [50, 49, 52, 55, 52, 56, 51, 54, 52, 56]] = some a ∧
      a.Valid (fun _ => some 1) ∧ a.run (fun _ => some 1) (2 ^ 31) = .overflow := by
  refine ⟨⟨⟨false, 10, 0⟩, by decide +kernel, valid_empty (by decide) (by decide),
    run_of_empty (by decide)⟩, ⟨false, 2147483648, 1⟩, by decide +kernel,
    valid_ones (by decide) (by decide), ?_⟩
  rcases run_of_ones (a := ⟨false, 2147483648, 1⟩) (by decide) (2 ^ 31) with ⟨i, -, hi⟩ | hover
  · have hmax := i.toInt_lt
    omega
  · exact hover

end TlpiExercises.AtomicAppend
