import TlpiExercises.GetNum

/-!
# Numeric arguments in other bases

With `GN_ANY_BASE`, `GN_BASE_8` or `GN_BASE_16` an argument of `getLong` and `getInt` is a number
of another base; the base 0 stands for the notations of C. What the scanner of `strtol` accepts is
compared with a grammar of numbers.
-/
namespace TlpiExercises.GetNum
open CText Exits

/-- The digit that a character stands for, in the bases up to 36. -/
def digitValue (c : UInt8) : Option ℕ :=
  if isdigit c then some (c.toNat - 48)
  else if 65 ≤ c && c ≤ 90 then some (c.toNat - 55)
  else if 97 ≤ c && c ≤ 122 then some (c.toNat - 87)
  else none

def isDigitIn (base : ℕ) (c : UInt8) : Bool := (digitValue c).any (· < base)

/-- The value of a run of digits. -/
def valueIn (base : ℕ) (ds : List UInt8) : ℕ :=
  ds.foldl (fun acc d => base * acc + (digitValue d).getD 0) 0

/-- `'x'` or `'X'`. -/
def isHexMark (c : UInt8) : Bool := c = 120 || c = 88

/-- What follows `0x`, where the base allows it. -/
def hexDigits (base : ℕ) : List UInt8 → Option (List UInt8)
  | zero :: x :: s => if zero = 48 && isHexMark x && (base = 0 || base = 16) then some s else none
  | _ => none

/-- The base of a number that does not start with `0x`. -/
def baseOf (base : ℕ) (s : List UInt8) : ℕ :=
  if base ≠ 0 then base else if s.head? = some 48 then 8 else 10

/-- The number behind the sign and what follows it. If there are no digits after `0x`, the number
is the zero before the `x`. -/
def scanDigits (base : ℕ) (s : List UInt8) : Option (ℕ × List UInt8) :=
  match hexDigits base s with
  | some s' =>
      let ds := s'.takeWhile (isDigitIn 16)
      if ds = [] then some (0, s.tail) else some (valueIn 16 ds, s'.dropWhile (isDigitIn 16))
  | none =>
      let ds := s.takeWhile (isDigitIn (baseOf base s))
      if ds = [] then none
      else some (valueIn (baseOf base s) ds, s.dropWhile (isDigitIn (baseOf base s)))

def signed (neg : Bool) (n : ℕ) : ℤ := if neg then -n else n

/-- The number at the start of a string and what follows it, for `strtol`. -/
def scanNum (base : ℕ) (s : List UInt8) : Option (ℤ × List UInt8) :=
  let sign := takeSign (s.dropWhile isspace)
  (scanDigits base sign.2).map fun r => (signed sign.1 r.1, r.2)

/-- The flags for another base. -/
structure BaseFlags where
  anyBase : Bool
  base8 : Bool
  base16 : Bool
  deriving DecidableEq, Repr

def BaseFlags.base (flags : BaseFlags) : ℕ :=
  if flags.anyBase then 0 else if flags.base8 then 8 else if flags.base16 then 16 else 10

/-- `getNum` for any flags. -/
def getNumIn (bases : BaseFlags) (flags : Flags) (arg : List UInt8) : Except GnFail ℤ := do
  require (arg ≠ []) .empty
  let (res, endptr) := (scanNum bases.base arg).getD (0, arg)
  require (clampLong res = res) .strtolFailed
  require (endptr = []) .nonnumeric
  require (!flags.nonneg || 0 ≤ res) .negative
  require (!flags.gt0 || 0 < res) .notPositive
  return res

/-- `getInt` for any flags. -/
def getIntIn (bases : BaseFlags) (flags : Flags) (arg : List UInt8) : Except GnFail Int32 := do
  let res ← getNumIn bases flags arg
  require (-2 ^ 31 ≤ res ∧ res < 2 ^ 31) .outOfRange
  return Int32.ofInt res

/-- The digits of a number, with the mark of its base. -/
inductive Literal (base : ℕ) : List UInt8 → ℕ → Prop
  | plain {ds : List UInt8} (hbase : base ≠ 0) (hne : ds ≠ []) (hds : ∀ d ∈ ds, isDigitIn base d) :
      Literal base ds (valueIn base ds)
  | hex {x : UInt8} {ds : List UInt8} (hbase : base = 0 ∨ base = 16) (hx : isHexMark x)
      (hne : ds ≠ []) (hds : ∀ d ∈ ds, isDigitIn 16 d) :
      Literal base (48 :: x :: ds) (valueIn 16 ds)
  | octal {ds : List UInt8} (hbase : base = 0) (hds : ∀ d ∈ ds, isDigitIn 8 d) :
      Literal base (48 :: ds) (valueIn 8 ds)
  | decimal {d : UInt8} {ds : List UInt8} (hbase : base = 0) (hd : d ≠ 48)
      (hds : ∀ c ∈ d :: ds, isDigitIn 10 c) : Literal base (d :: ds) (valueIn 10 (d :: ds))

/-- The sign of a number; whether it is negative. -/
inductive Sign : List UInt8 → Bool → Prop
  | none : Sign [] false
  | plus : Sign [43] false
  | minus : Sign [45] true

/-- The text is a number of the base, with white space before it. -/
def Denotes (base : ℕ) (text : List UInt8) (v : ℤ) : Prop :=
  ∃ ws sign neg lit n, (∀ c ∈ ws, isspace c) ∧ Sign sign neg ∧ Literal base lit n ∧
    text = ws ++ (sign ++ lit) ∧ v = signed neg n

section Scanner

theorem isDigitIn_iff {base : ℕ} {c : UInt8} :
    isDigitIn base c ↔ ∃ d, digitValue c = some d ∧ d < base := by
  rw [isDigitIn, Option.any_eq_true]
  simp

theorem le_of_digitValue {c : UInt8} {d : ℕ} (h : digitValue c = some d) : 48 ≤ c.toNat := by
  simp only [digitValue, isdigit, Bool.and_eq_true, decide_eq_true_eq, UInt8.le_iff_toNat_le] at h
  split_ifs at h with h₁ h₂ h₃
  · exact h₁.1
  · exact le_trans (by decide) h₂.1
  · exact le_trans (by decide) h₃.1

/-- A digit is neither a sign nor white space. -/
theorem isDigitIn_ne {base : ℕ} {c : UInt8} (h : isDigitIn base c) :
    c ≠ 45 ∧ c ≠ 43 ∧ isspace c = false := by
  obtain ⟨d, hd, -⟩ := isDigitIn_iff.mp h
  have hle := le_of_digitValue hd
  refine ⟨by rintro rfl; exact absurd hle (by decide), by rintro rfl; exact absurd hle (by decide), ?_⟩
  simp only [isspace, Bool.or_eq_false_iff, Bool.and_eq_false_iff, decide_eq_false_iff_not,
    UInt8.le_iff_toNat_le, ← UInt8.toNat_inj]
  simp
  omega

theorem not_isHexMark_of_digit {base : ℕ} {c : UInt8} (hbase : base ≤ 16) (h : isDigitIn base c) :
    isHexMark c = false := by
  obtain ⟨d, hd, hlt⟩ := isDigitIn_iff.mp h
  rw [isHexMark, Bool.or_eq_false_iff, decide_eq_false_iff_not, decide_eq_false_iff_not]
  constructor
  · rintro rfl
    obtain rfl : 33 = d := by simpa [digitValue, isdigit] using hd
    omega
  · rintro rfl
    obtain rfl : 33 = d := by simpa [digitValue, isdigit] using hd
    omega

/-- Digits to the end of the text are taken as one run. -/
theorem span_all {base : ℕ} {s : List UInt8} (h : ∀ d ∈ s, isDigitIn base d) :
    s.takeWhile (isDigitIn base) = s ∧ s.dropWhile (isDigitIn base) = [] :=
  ⟨List.takeWhile_eq_self_iff.mpr h, List.dropWhile_eq_nil_iff.mpr h⟩

theorem eq_takeWhile {base : ℕ} {s : List UInt8} (h : s.dropWhile (isDigitIn base) = []) :
    s.takeWhile (isDigitIn base) = s ∧ ∀ d ∈ s, isDigitIn base d := by
  have hall := List.dropWhile_eq_nil_iff.mp h
  exact ⟨(span_all hall).1, hall⟩

theorem hexDigits_eq_some_iff {base : ℕ} {s ds : List UInt8} :
    hexDigits base s = some ds ↔
      ∃ x, s = 48 :: x :: ds ∧ isHexMark x ∧ (base = 0 ∨ base = 16) := by
  match s with
  | [] | [_] => simp [hexDigits]
  | zero :: x :: s =>
      rw [hexDigits, Option.ite_none_right_eq_some]
      simp only [Bool.and_eq_true, Bool.or_eq_true, decide_eq_true_eq, Option.some.injEq,
        List.cons.injEq]
      constructor
      · rintro ⟨⟨⟨rfl, hx⟩, hbase⟩, rfl⟩
        exact ⟨x, ⟨rfl, rfl, rfl⟩, hx, hbase⟩
      · rintro ⟨x, ⟨rfl, rfl, rfl⟩, hx, hbase⟩
        exact ⟨⟨⟨rfl, hx⟩, hbase⟩, rfl⟩

/-- Digits of a base up to 16 do not start with `0x`. -/
theorem hexDigits_eq_none {base radix : ℕ} (hradix : radix ≤ 16) {s : List UInt8}
    (h : ∀ d ∈ s, isDigitIn radix d) : hexDigits base s = none := by
  refine Option.eq_none_iff_forall_ne_some.mpr fun ds hds => ?_
  obtain ⟨x, rfl, hx, -⟩ := hexDigits_eq_some_iff.mp hds
  rw [not_isHexMark_of_digit hradix (h x (by simp))] at hx
  contradiction

theorem scanDigits_of_all {base : ℕ} {s : List UInt8} (hhex : hexDigits base s = none)
    (hne : s ≠ []) (hds : ∀ d ∈ s, isDigitIn (baseOf base s) d) :
    scanDigits base s = some (valueIn (baseOf base s) s, []) := by
  obtain ⟨htake, hdrop⟩ := span_all hds
  simp only [scanDigits, hhex, htake, hdrop, if_neg hne]

theorem baseOf_of_ne_zero {base : ℕ} (hbase : base ≠ 0) (s : List UInt8) : baseOf base s = base :=
  if_pos hbase

theorem baseOf_octal {base : ℕ} (hbase : base = 0) (ds : List UInt8) :
    baseOf base (48 :: ds) = 8 := by
  simp [baseOf, hbase]

theorem baseOf_decimal {base : ℕ} (hbase : base = 0) {d : UInt8} (hd : d ≠ 48) (ds : List UInt8) :
    baseOf base (d :: ds) = 10 := by
  simp [baseOf, hbase, hd]

/-- Digits of the base that their start stands for are a literal. -/
theorem literal_of_all {base : ℕ} {s : List UInt8} (hne : s ≠ [])
    (hds : ∀ d ∈ s, isDigitIn (baseOf base s) d) : Literal base s (valueIn (baseOf base s) s) := by
  by_cases hzero : base = 0
  · obtain ⟨d, ds, rfl⟩ := List.exists_cons_of_ne_nil hne
    by_cases hd : d = 48
    · subst hd
      rw [baseOf_octal hzero] at hds ⊢
      exact .octal hzero fun c hc => hds c (List.mem_cons_of_mem _ hc)
    · rw [baseOf_decimal hzero hd] at hds ⊢
      exact .decimal hzero hd hds
  · rw [baseOf_of_ne_zero hzero] at hds ⊢
    exact .plain hzero hne hds

theorem literal_of_scanDigits {base : ℕ} {s : List UInt8} {n : ℕ}
    (h : scanDigits base s = some (n, [])) : Literal base s n := by
  unfold scanDigits at h
  cases hhex : hexDigits base s with
  | some ds =>
      obtain ⟨x, rfl, hx, hbase⟩ := hexDigits_eq_some_iff.mp hhex
      simp only [hhex] at h
      split_ifs at h with hnil
      · simp at h
      · obtain ⟨rfl, hdrop⟩ := Prod.mk.inj (Option.some.inj h)
        obtain ⟨htake, hds⟩ := eq_takeWhile hdrop
        rw [htake] at hnil ⊢
        exact .hex hbase hx hnil hds
  | none =>
      simp only [hhex] at h
      split_ifs at h with hnil
      obtain ⟨rfl, hdrop⟩ := Prod.mk.inj (Option.some.inj h)
      obtain ⟨htake, hds⟩ := eq_takeWhile hdrop
      rw [htake] at hnil ⊢
      exact literal_of_all hnil hds

theorem scanDigits_of_literal {base : ℕ} (hbase : base ≤ 16) {s : List UInt8} {n : ℕ}
    (h : Literal base s n) : scanDigits base s = some (n, []) := by
  cases h with
  | plain hzero hne hds =>
      have hscan := scanDigits_of_all (hexDigits_eq_none hbase hds) hne
        (by rwa [baseOf_of_ne_zero hzero])
      rwa [baseOf_of_ne_zero hzero] at hscan
  | @hex x ds hbase' hx hne hds =>
      have hhex : hexDigits base (48 :: x :: ds) = some ds :=
        hexDigits_eq_some_iff.mpr ⟨x, rfl, hx, hbase'⟩
      obtain ⟨htake, hdrop⟩ := span_all hds
      simp only [scanDigits, hhex, htake, hdrop, if_neg hne]
  | @octal ds hzero hds =>
      have hall : ∀ d ∈ (48 : UInt8) :: ds, isDigitIn 8 d := List.forall_mem_cons.mpr ⟨rfl, hds⟩
      have hscan := scanDigits_of_all (hexDigits_eq_none (by decide) hall) (List.cons_ne_nil _ _)
        (by rwa [baseOf_octal hzero])
      rwa [baseOf_octal hzero] at hscan
  | @decimal d ds hzero hd hds =>
      have hscan := scanDigits_of_all (hexDigits_eq_none (by decide) hds) (List.cons_ne_nil _ _)
        (by rwa [baseOf_decimal hzero hd])
      rwa [baseOf_decimal hzero hd] at hscan

/-- The scanner reads a text to its end exactly if the text is a literal. -/
theorem scanDigits_iff {base : ℕ} (hbase : base ≤ 16) {s : List UInt8} {n : ℕ} :
    scanDigits base s = some (n, []) ↔ Literal base s n :=
  ⟨literal_of_scanDigits, scanDigits_of_literal hbase⟩

/-- A literal starts with a digit. -/
theorem Literal.head {base : ℕ} {s : List UInt8} {n : ℕ} (h : Literal base s n) :
    ∃ d ds radix, s = d :: ds ∧ isDigitIn radix d := by
  cases h with
  | plain hbase hne hds =>
      obtain ⟨d, ds, rfl⟩ := List.exists_cons_of_ne_nil hne
      exact ⟨d, ds, base, rfl, hds d (by simp)⟩
  | hex => exact ⟨_, _, 10, rfl, rfl⟩
  | octal => exact ⟨_, _, 10, rfl, rfl⟩
  | decimal hbase hd hds => exact ⟨_, _, 10, rfl, hds _ (by simp)⟩

theorem takeSign_cases (s : List UInt8) :
    ∃ sign neg, Sign sign neg ∧ s = sign ++ (takeSign s).2 ∧ (takeSign s).1 = neg := by
  cases s with
  | nil => exact ⟨[], false, .none, rfl, rfl⟩
  | cons c s =>
      simp only [takeSign]
      split_ifs with hminus hplus
      · exact ⟨[45], true, .minus, by rw [hminus]; rfl, rfl⟩
      · exact ⟨[43], false, .plus, by rw [hplus]; rfl, rfl⟩
      · exact ⟨[], false, .none, rfl, rfl⟩

theorem takeSign_literal {base : ℕ} {ws sign lit : List UInt8} {neg : Bool} {n : ℕ}
    (hws : ∀ c ∈ ws, isspace c) (hsign : Sign sign neg) (hlit : Literal base lit n) :
    takeSign ((ws ++ (sign ++ lit)).dropWhile isspace) = (neg, lit) := by
  rw [List.dropWhile_append_of_pos hws]
  cases hsign with
  | none =>
      obtain ⟨d, ds, radix, rfl, hd⟩ := hlit.head
      obtain ⟨hminus, hplus, hspace⟩ := isDigitIn_ne hd
      simp [hspace, takeSign, hminus, hplus]
  | plus => simp [isspace, takeSign]
  | minus => simp [isspace, takeSign]

theorem scanNum_iff {base : ℕ} (hbase : base ≤ 16) {s : List UInt8} {v : ℤ} :
    scanNum base s = some (v, []) ↔ Denotes base s v := by
  constructor
  · intro h
    obtain ⟨⟨n, rest⟩, hscan, hv⟩ := Option.map_eq_some_iff.mp h
    obtain ⟨rfl, rfl⟩ := Prod.mk.inj hv
    obtain ⟨sign, neg, hsign, htext, hneg⟩ := takeSign_cases (s.dropWhile isspace)
    refine ⟨s.takeWhile isspace, sign, neg, _, n, fun c hc => List.mem_takeWhile_imp hc, hsign,
      (scanDigits_iff hbase).mp hscan, ?_, by rw [hneg]⟩
    rw [← htext, List.takeWhile_append_dropWhile]
  · rintro ⟨ws, sign, neg, lit, n, hws, hsign, hlit, rfl, rfl⟩
    simp only [scanNum, takeSign_literal hws hsign hlit, (scanDigits_iff hbase).mpr hlit,
      Option.map_some]

theorem isDigitIn_ten : isDigitIn 10 = isdigit := by
  funext c
  by_cases hc : isdigit c
  · have hle := (isdigit_iff.mp hc).2
    rw [hc, isDigitIn_iff]
    exact ⟨c.toNat - 48, if_pos hc, by omega⟩
  · rw [Bool.eq_false_iff.mpr hc, Bool.eq_false_iff, ne_eq, isDigitIn_iff]
    rintro ⟨d, hd, hlt⟩
    simp only [digitValue, if_neg hc, Bool.and_eq_true, decide_eq_true_eq,
      UInt8.le_iff_toNat_le] at hd
    split_ifs at hd with h₁ h₂
    · obtain ⟨hlow, -⟩ := h₁
      have hd := Option.some.inj hd
      simp at hlow
      omega
    · obtain ⟨hlow, -⟩ := h₂
      have hd := Option.some.inj hd
      simp at hlow
      omega

theorem valueIn_ten {ds : List UInt8} (h : ∀ d ∈ ds, isdigit d) : valueIn 10 ds = digitsVal ds := by
  refine List.foldl_ext _ _ _ fun acc d hd => ?_
  rw [digitValue, if_pos (h d hd), Option.getD_some]

/-- In base 10 the scanner is the one for decimal numbers. -/
theorem scanNum_ten (s : List UInt8) : scanNum 10 s = scanInt s := by
  have hhex : ∀ t, hexDigits 10 t = none := by
    intro t
    refine Option.eq_none_iff_forall_ne_some.mpr fun ds hds => ?_
    obtain ⟨x, -, -, hbase⟩ := hexDigits_eq_some_iff.mp hds
    omega
  have hbase : ∀ t, baseOf 10 t = 10 := fun _ => rfl
  simp only [scanNum, scanInt, scanDigits, hhex, hbase, isDigitIn_ten]
  split_ifs with hnil hneg
  · rfl
  all_goals
    rw [Option.map_some, valueIn_ten fun d hd => List.mem_takeWhile_imp hd]
    simp [signed, hneg]

end Scanner

section Checks

variable {bases : BaseFlags} {flags : Flags} {arg : List UInt8} {res : ℤ}

/-- Without flags for another base this is the function for decimal numbers. -/
theorem getNumIn_decimal (h : bases.base = 10) : getNumIn bases flags arg = getNum flags arg := by
  unfold getNumIn getNum
  rw [h, scanNum_ten]

/-- `GN_GT_0` gives a positive number in any base. -/
theorem getIntIn_pos {n : Int32} (hgt0 : flags.gt0) (h : getIntIn bases flags arg = .ok n) :
    0 < n.toInt := by
  simp only [getIntIn, getNumIn, bind_eq_ok_iff, require_eq_ok_iff, pure_eq_ok_iff, exists_and_left,
    exists_const, decide_eq_true_eq] at h
  obtain ⟨res, ⟨-, -, -, -, hpos, rfl⟩, hrange, rfl⟩ := h
  rw [Int32.toInt_ofInt_of_le hrange.1 hrange.2]
  simpa [hgt0] using hpos

theorem BaseFlags.base_le (bases : BaseFlags) : bases.base ≤ 16 := by
  unfold base
  split_ifs <;> decide

theorem Denotes.ne_nil {base : ℕ} (h : Denotes base arg res) : arg ≠ [] := by
  obtain ⟨ws, sign, neg, lit, n, -, -, hlit, rfl, -⟩ := h
  obtain ⟨d, ds, -, rfl, -⟩ := hlit.head
  simp

/-- For any flags an argument is accepted exactly if all of it is a number in the notation of the
base, the number fits a `long`, and its sign is allowed. -/
theorem getNumIn_eq_ok_iff :
    getNumIn bases flags arg = .ok res ↔ Denotes bases.base arg res ∧
      (-2 ^ 63 ≤ res ∧ res < 2 ^ 63) ∧ (flags.nonneg → 0 ≤ res) ∧ (flags.gt0 → 0 < res) := by
  have hflag : ∀ (b : Bool) (p : Prop) [Decidable p], (!b || decide p) = true ↔ (b → p) := by
    intro b p _
    cases b <;> simp
  rw [← scanNum_iff bases.base_le]
  unfold getNumIn
  simp only [bind_eq_ok_iff, require_eq_ok_iff, pure_eq_ok_iff, exists_and_left, exists_const,
    decide_eq_true_eq, hflag, clampLong_eq_self_iff]
  constructor
  · rintro ⟨hne, hrange, hend, hnonneg, hgt0, rfl⟩
    cases hscan : scanNum bases.base arg with
    | none => exact absurd (by simpa [hscan] using hend) hne
    | some r =>
        rw [hscan, Option.getD_some] at hrange hend hnonneg hgt0
        rw [Option.getD_some]
        exact ⟨congrArg some (Prod.ext rfl hend), hrange, hnonneg, hgt0⟩
  · rintro ⟨hscan, hrange, hnonneg, hgt0⟩
    have hne := ((scanNum_iff bases.base_le).mp hscan).ne_nil
    simp only [hscan, Option.getD_some]
    exact ⟨hne, hrange, trivial, hnonneg, hgt0, trivial⟩

end Checks

end TlpiExercises.GetNum
