import TlpiExercises.GetNum

/-!
# Sleeping to a point in time

The program adds its arguments to a reading of the clock, carries whole seconds over by C
division, and calls `clock_nanosleep` until it returns zero. The call returns an error number
and not -1, so that the test for errors never succeeds. Which numbers it returns for a request
is an argument of the model; the other calls succeed.
-/
namespace TlpiExercises.ClockNanosleep
open GetNum Exits

structure Timespec where
  tvSec : Int64
  tvNsec : Int64
  deriving DecidableEq, Repr

namespace Timespec

/-- The time in nanoseconds. -/
def nanos (t : Timespec) : ℤ := t.tvSec.toInt * 1000000000 + t.tvNsec.toInt

/-- The request of a time from the start of the clock on. -/
def ofNanos (x : ℤ) : Timespec := ⟨Int64.ofInt (x / 1000000000), Int64.ofInt (x % 1000000000)⟩

/-- The kernel accepts the time. -/
def Valid (t : Timespec) : Prop :=
  0 ≤ t.tvSec.toInt ∧ 0 ≤ t.tvNsec.toInt ∧ t.tvNsec.toInt ≤ 999999999

instance (t : Timespec) : Decidable t.Valid := inferInstanceAs (Decidable (_ ∧ _ ∧ _))

end Timespec

/-- Error numbers. -/
abbrev EINTR : Int32 := 4
abbrev EINVAL : Int32 := 22

/-- What a call of `clock_nanosleep` returns, and `errno` after it. -/
structure Reply where
  s : Int32
  errno : Int32
  deriving DecidableEq, Repr

/-- `clock_nanosleep` for a request: what the calls of it return, one after the other. -/
structure Kernel where
  clockNanosleep : Timespec → ℕ → Reply
  nonneg : ∀ request k, 0 ≤ (clockNanosleep request k).s.toInt
  einval_iff : ∀ request k, (clockNanosleep request k).s = EINVAL ↔ ¬ request.Valid
  interrupted : ∀ request, ∃ k, (clockNanosleep request k).s ≠ EINTR

/-- An argument that is no number, or undefined arithmetic. -/
inductive Stop where
  | badArgument (e : GnFail)
  | overflow
  deriving DecidableEq, Repr

/-- The result of an operation on `long`s. -/
def long (x : ℤ) : Except Stop Int64 := do
  require (-2 ^ 63 ≤ x ∧ x < 2 ^ 63) .overflow
  return Int64.ofInt x

/-- `getLong(arg, 0, ...)`. -/
def argument (arg : List UInt8) : Except Stop Int64 :=
  (getLong ⟨false, false⟩ arg).mapError .badArgument

/-- `request` before the loop, from this reading of the clock. -/
def readRequest (clock : Timespec) (secsArg nanosecsArg : List UInt8) : Except Stop Timespec := do
  let secs ← argument secsArg
  let tvSec ← long (clock.tvSec.toInt + secs.toInt)
  let nanosecs ← argument nanosecsArg
  let tvNsec ← long (clock.tvNsec.toInt + nanosecs.toInt)
  let tvSec ← long (tvSec.toInt + tvNsec.toInt.tdiv 1000000000)
  return ⟨tvSec, Int64.ofInt (tvNsec.toInt.tmod 1000000000)⟩

/-- How the program leaves its loop, after how many calls. -/
inductive Ending where
  | completed (calls : ℕ)
  | exited (calls : ℕ)
  deriving DecidableEq, Repr

/-- The loop, for at most so many rounds; the second number is that of the calls before. -/
def sleepLoop (reply : ℕ → Reply) : ℕ → ℕ → Option Ending
  | 0, _ => none
  | fuel + 1, k =>
      if (reply k).s = -1 ∧ (reply k).errno ≠ EINTR then some (.exited (k + 1))
      else if (reply k).s = 0 then some (.completed (k + 1))
      else sleepLoop reply fuel (k + 1)

/-- The request, and how the loop ends if that many rounds are enough. -/
def main (kernel : Kernel) (clock : Timespec) (secsArg nanosecsArg : List UInt8) (fuel : ℕ) :
    Except Stop (Timespec × Option Ending) := do
  let request ← readRequest clock secsArg nanosecsArg
  return (request, sleepLoop (kernel.clockNanosleep request) fuel 0)

/-- The call with this number is the first that is not interrupted. -/
def FirstResult (reply : ℕ → Reply) (n : ℕ) : Prop :=
  (reply n).s ≠ EINTR ∧ ∀ m < n, (reply m).s = EINTR

/-- After the first result other than `EINTR` the program has slept to the deadline, or it exits
with an error. -/
def Sleeps (kernel : Kernel) (clock : Timespec) (secsArg nanosecsArg : List UInt8)
    (deadline : ℤ) : Prop :=
  ∃ fuel request ending n, main kernel clock secsArg nanosecsArg fuel = .ok (request, some ending) ∧
    FirstResult (kernel.clockNanosleep request) n ∧
    (ending = .exited (n + 1) ∨ (ending = .completed (n + 1) ∧
      (kernel.clockNanosleep request n).s = 0 ∧ request.nanos = deadline))

/-- The deadline is not before the start of the clock, the sums on the way to it do not overflow,
and the sum of the nanoseconds is whole seconds if it is negative. -/
structure Fits (clock : Timespec) (secs nanosecs : Int64) (deadline : ℤ) : Prop where
  sec : -2 ^ 63 ≤ clock.tvSec.toInt + secs.toInt ∧ clock.tvSec.toInt + secs.toInt < 2 ^ 63
  nsec : clock.tvNsec.toInt + nanosecs.toInt < 2 ^ 63
  whole : 0 ≤ clock.tvNsec.toInt + nanosecs.toInt ∨
    1000000000 ∣ clock.tvNsec.toInt + nanosecs.toInt
  start : 0 ≤ deadline
  last : deadline / 1000000000 < 2 ^ 63

section Request

variable {clock request : Timespec} {secsArg nanosecsArg : List UInt8} {secs nanosecs : Int64}

theorem long_eq_ok_iff {x : ℤ} {n : Int64} : long x = .ok n ↔ x = n.toInt := by
  have hl := n.le_toInt
  have hr := n.toInt_lt
  unfold long
  simp only [bind_eq_ok_iff, require_eq_ok_iff, pure_eq_ok_iff, decide_eq_true_eq, exists_const]
  constructor
  · rintro ⟨hrange, rfl⟩
    exact (Int64.toInt_ofInt_of_le hrange.1 hrange.2).symm
  · rintro rfl
    exact ⟨⟨hl, hr⟩, Int64.ofInt_toInt n⟩

theorem argument_eq {arg : List UInt8} {n : Int64} (h : getLong ⟨false, false⟩ arg = .ok n) :
    argument arg = .ok n := by
  rw [argument, h]
  rfl

/-- C's division rounds to zero, and the remainder has the sign of the dividend. -/
theorem tdiv_tmod_spec (x : ℤ) :
    x = x.tdiv 1000000000 * 1000000000 + x.tmod 1000000000 ∧
      (-1000000000 < x.tmod 1000000000 ∧ x.tmod 1000000000 < 1000000000) ∧
      (0 ≤ x.tmod 1000000000 ↔ 0 ≤ x ∨ 1000000000 ∣ x) := by
  have hsum := Int.tmod_add_tdiv_mul x 1000000000
  have hlow := Int.lt_tmod_of_pos x (show (0 : ℤ) < 1000000000 by decide)
  have hhigh := Int.tmod_lt_of_pos x (show (0 : ℤ) < 1000000000 by decide)
  refine ⟨by omega, ⟨hlow, hhigh⟩, ?_⟩
  rcases le_total 0 x with hx | hx
  · exact iff_of_true (Int.tmod_nonneg _ hx) (.inl hx)
  · have hneg := Int.tmod_nonneg 1000000000 (neg_nonneg.mpr hx)
    rw [Int.neg_tmod] at hneg
    omega

theorem readRequest_eq_ok_iff (hsecs : getLong ⟨false, false⟩ secsArg = .ok secs)
    (hnanosecs : getLong ⟨false, false⟩ nanosecsArg = .ok nanosecs) :
    readRequest clock secsArg nanosecsArg = .ok request ↔
      ∃ tvSec tvNsec : Int64, clock.tvSec.toInt + secs.toInt = tvSec.toInt ∧
        clock.tvNsec.toInt + nanosecs.toInt = tvNsec.toInt ∧
        tvSec.toInt + tvNsec.toInt.tdiv 1000000000 = request.tvSec.toInt ∧
        tvNsec.toInt.tmod 1000000000 = request.tvNsec.toInt := by
  have hmod : ∀ x : ℤ, (Int64.ofInt (x.tmod 1000000000)).toInt = x.tmod 1000000000 := by
    intro x
    obtain ⟨-, ⟨hlow, hhigh⟩, -⟩ := tdiv_tmod_spec x
    exact Int64.toInt_ofInt_of_le (by omega) (by omega)
  unfold readRequest
  simp only [bind_eq_ok_iff, pure_eq_ok_iff, long_eq_ok_iff, argument_eq hsecs,
    argument_eq hnanosecs, Except.ok.injEq, exists_eq_left']
  constructor
  · rintro ⟨tvSec, hsec, tvNsec, hnsec, tvSec', hsec', rfl⟩
    exact ⟨tvSec, tvNsec, hsec, hnsec, hsec', (hmod _).symm⟩
  · rintro ⟨tvSec, tvNsec, hsec, hnsec, hsec', hnsec'⟩
    refine ⟨tvSec, hsec, tvNsec, hnsec, request.tvSec, hsec', ?_⟩
    rw [hnsec', Int64.ofInt_toInt]

/-- The request is one that the kernel accepts exactly if everything fits, and then it is the
deadline. -/
theorem readRequest_valid_iff (hclock : 0 ≤ clock.tvNsec.toInt)
    (hsecs : getLong ⟨false, false⟩ secsArg = .ok secs)
    (hnanosecs : getLong ⟨false, false⟩ nanosecsArg = .ok nanosecs) {deadline : ℤ}
    (hdeadline : deadline = clock.nanos + secs.toInt * 1000000000 + nanosecs.toInt) :
    readRequest clock secsArg nanosecsArg = .ok request ∧ request.Valid ↔
      Fits clock secs nanosecs deadline ∧ request = .ofNanos deadline := by
  rw [readRequest_eq_ok_iff hsecs hnanosecs]
  unfold Timespec.nanos at hdeadline
  have hnanosecs := nanosecs.le_toInt
  constructor
  · rintro ⟨⟨tvSec, tvNsec, hsec, hnsec, hsec', hnsec'⟩, hpos, hnonneg, hle⟩
    obtain ⟨hsum, -, hwhole⟩ := tdiv_tmod_spec tvNsec.toInt
    have hl := tvSec.le_toInt
    have hr := tvSec.toInt_lt
    have hr' := tvNsec.toInt_lt
    have hlast := request.tvSec.toInt_lt
    have hdiv : deadline / 1000000000 = request.tvSec.toInt := by omega
    have hmod : deadline % 1000000000 = request.tvNsec.toInt := by omega
    refine ⟨⟨by omega, by omega, ?_, by omega, by omega⟩, ?_⟩
    · rw [hnsec, ← hwhole]
      omega
    · rw [Timespec.ofNanos, hdiv, hmod, Int64.ofInt_toInt, Int64.ofInt_toInt]
  · rintro ⟨h, rfl⟩
    obtain ⟨hsec, hnsec, hwhole, hstart, hlast⟩ := h
    have hdiv : (Timespec.ofNanos deadline).tvSec.toInt = deadline / 1000000000 :=
      Int64.toInt_ofInt_of_le (by omega) (by omega)
    have hmod : (Timespec.ofNanos deadline).tvNsec.toInt = deadline % 1000000000 :=
      Int64.toInt_ofInt_of_le (by omega) (by omega)
    have hsec' := Int64.toInt_ofInt_of_le hsec.1 hsec.2
    have hnsec' := Int64.toInt_ofInt_of_le
      (show -2 ^ 63 ≤ clock.tvNsec.toInt + nanosecs.toInt by omega) hnsec
    obtain ⟨hsum, ⟨hlow, hhigh⟩, hiff⟩ := tdiv_tmod_spec (clock.tvNsec.toInt + nanosecs.toInt)
    have hnonneg := hiff.mpr hwhole
    refine ⟨⟨_, _, hsec'.symm, hnsec'.symm, ?_, ?_⟩, ?_⟩
    · rw [hsec', hnsec', hdiv]
      omega
    · rw [hnsec', hmod]
      omega
    · unfold Timespec.Valid
      rw [hdiv, hmod]
      omega

theorem nanos_ofNanos {x : ℤ} (hstart : 0 ≤ x) (hlast : x / 1000000000 < 2 ^ 63) :
    (Timespec.ofNanos x).nanos = x := by
  unfold Timespec.nanos Timespec.ofNanos
  rw [Int64.toInt_ofInt_of_le (by omega) hlast, Int64.toInt_ofInt_of_le (by omega) (by omega)]
  omega

end Request

section Loop

variable {reply : ℕ → Reply}

/-- The loop goes on until the call returns zero, whatever else it returns. -/
theorem sleepLoop_eq_some_iff (hnonneg : ∀ k, 0 ≤ (reply k).s.toInt) {fuel k : ℕ}
    {ending : Ending} :
    sleepLoop reply fuel k = some ending ↔
      ∃ n, (k ≤ n ∧ n < k + fuel) ∧ (reply n).s = 0 ∧
        (∀ m, k ≤ m → m < n → (reply m).s ≠ 0) ∧ ending = .completed (n + 1) := by
  induction fuel generalizing k with
  | zero =>
      refine iff_of_false (by simp [sleepLoop]) ?_
      rintro ⟨n, hn, -⟩
      omega
  | succ fuel ih =>
      have herror : ¬ ((reply k).s = -1 ∧ (reply k).errno ≠ EINTR) := by
        rintro ⟨hs, -⟩
        have hk := hnonneg k
        rw [hs] at hk
        exact absurd hk (by decide)
      rw [sleepLoop, if_neg herror]
      by_cases hzero : (reply k).s = 0
      · rw [if_pos hzero, Option.some.injEq]
        constructor
        · rintro rfl
          exact ⟨k, by omega, hzero, fun m hkm hmk => absurd hkm (by omega), rfl⟩
        · rintro ⟨n, hn, -, hbefore, rfl⟩
          obtain rfl : k = n := by
            by_contra hne
            exact hbefore k le_rfl (by omega) hzero
          rfl
      · rw [if_neg hzero, ih]
        constructor
        · rintro ⟨n, hn, hs, hbefore, rfl⟩
          refine ⟨n, by omega, hs, fun m hkm hmn => ?_, rfl⟩
          by_cases hm : m = k
          · exact hm ▸ hzero
          · exact hbefore m (by omega) hmn
        · rintro ⟨n, hn, hs, hbefore, rfl⟩
          have hne : n ≠ k := by
            rintro rfl
            exact hzero hs
          exact ⟨n, by omega, hs, fun m hkm hmn => hbefore m (by omega) hmn, rfl⟩

theorem Kernel.valid_of_zero (kernel : Kernel) {request : Timespec} {n : ℕ}
    (h : (kernel.clockNanosleep request n).s = 0) : request.Valid := by
  by_contra hnot
  have heinval := (kernel.einval_iff request n).mpr hnot
  rw [h] at heinval
  exact absurd heinval (by decide)

/-- A request that the kernel does not accept is repeated for ever. -/
theorem sleepLoop_of_not_valid (kernel : Kernel) {request : Timespec} (h : ¬ request.Valid)
    (fuel : ℕ) : sleepLoop (kernel.clockNanosleep request) fuel 0 = none := by
  rw [Option.eq_none_iff_forall_ne_some]
  intro ending hrun
  obtain ⟨n, -, hs, -⟩ := (sleepLoop_eq_some_iff (kernel.nonneg request)).mp hrun
  exact h (kernel.valid_of_zero hs)

end Loop

/-- The program sleeps to the deadline, or exits with an error, exactly if everything fits and the
first result other than `EINTR` is zero: on an error it calls again. -/
theorem sleeps_iff (kernel : Kernel) {clock : Timespec} (hclock : 0 ≤ clock.tvNsec.toInt)
    {secsArg nanosecsArg : List UInt8} {secs nanosecs : Int64}
    (hsecs : getLong ⟨false, false⟩ secsArg = .ok secs)
    (hnanosecs : getLong ⟨false, false⟩ nanosecsArg = .ok nanosecs) {deadline : ℤ}
    (hdeadline : deadline = clock.nanos + secs.toInt * 1000000000 + nanosecs.toInt) :
    Sleeps kernel clock secsArg nanosecsArg deadline ↔
      Fits clock secs nanosecs deadline ∧
        ∃ n, FirstResult (kernel.clockNanosleep (.ofNanos deadline)) n ∧
          (kernel.clockNanosleep (.ofNanos deadline) n).s = 0 := by
  constructor
  · rintro ⟨fuel, request, ending, n, hmain, hfirst, hend⟩
    unfold main at hmain
    simp only [bind_eq_ok_iff, pure_eq_ok_iff, Prod.mk.injEq] at hmain
    obtain ⟨_, hrequest, rfl, hrun⟩ := hmain
    obtain ⟨m, -, hzero, -, rfl⟩ := (sleepLoop_eq_some_iff (kernel.nonneg _)).mp hrun
    obtain ⟨hn, -⟩ := hend.resolve_left (by simp)
    obtain rfl : m = n := by simpa using hn
    obtain ⟨hfits, rfl⟩ := (readRequest_valid_iff hclock hsecs hnanosecs hdeadline).mp
      ⟨hrequest, kernel.valid_of_zero hzero⟩
    exact ⟨hfits, m, hfirst, hzero⟩
  · rintro ⟨hfits, n, hfirst, hzero⟩
    obtain ⟨hrequest, -⟩ :=
      (readRequest_valid_iff hclock hsecs hnanosecs hdeadline).mpr ⟨hfits, rfl⟩
    refine ⟨n + 1, .ofNanos deadline, .completed (n + 1), n, ?_, hfirst,
      .inr ⟨rfl, hzero, nanos_ofNanos hfits.start hfits.last⟩⟩
    unfold main
    simp only [bind_eq_ok_iff, pure_eq_ok_iff, Prod.mk.injEq]
    refine ⟨_, hrequest, rfl, (sleepLoop_eq_some_iff (kernel.nonneg _)).mpr ?_⟩
    refine ⟨n, by omega, hzero, fun m _ hm => ?_, rfl⟩
    rw [hfirst.2 m hm]
    decide

/-- A kernel that is never interrupted and has no errors of its own. -/
def prompt : Kernel where
  clockNanosleep request _ := ⟨if request.Valid then 0 else EINVAL, 0⟩
  nonneg request _ := by
    dsimp only
    split <;> decide
  einval_iff request _ := by
    dsimp only
    split
    next h => exact iff_of_false (by decide) (not_not.mpr h)
    next h => exact iff_of_true rfl h
  interrupted request := by
    refine ⟨0, ?_⟩
    dsimp only
    split <;> decide

/-- One second and two nanoseconds after a time just before a full second. -/
theorem sleeps_iff_carry : Sleeps prompt ⟨100, 999999999⟩ [49] [50] 102000000001 := by
  have hsecs : getLong ⟨false, false⟩ [49] = .ok 1 := by decide
  have hnanosecs : getLong ⟨false, false⟩ [50] = .ok 2 := by decide
  refine (sleeps_iff prompt (by decide) hsecs hnanosecs (by decide)).mpr ⟨?_, 0, ?_, ?_⟩
  · exact ⟨by decide, by decide, by decide, by decide, by decide⟩
  · exact ⟨by decide, fun m hm => absurd hm (by omega)⟩
  · decide

/-- With a negative number of nanoseconds the program never leaves its loop. -/
theorem negative_nanosecs_spin :
    getLong ⟨false, false⟩ [45, 53] = .ok (-5) ∧
      ∀ fuel, main prompt ⟨100, 0⟩ [48] [45, 53] fuel = .ok (⟨100, -5⟩, none) := by
  refine ⟨by decide, fun fuel => ?_⟩
  have hrequest : readRequest ⟨100, 0⟩ [48] [45, 53] = .ok ⟨100, -5⟩ := by decide
  rw [main, hrequest]
  exact congrArg (fun r => Except.ok (_, r)) (sleepLoop_of_not_valid prompt (by decide) fuel)

end TlpiExercises.ClockNanosleep
