import Mathlib.Data.List.DropRight
import Mathlib.Data.List.TakeWhile
import Mathlib.Tactic

/-!
# Numbers and fields as text in the C library

The parts of `strtol`, `atoi`, `sscanf` and `printf` that read and write decimal
integers, on the bytes of a string without its terminating zero. Reading skips
white space, takes an optional sign and the longest run of digits; a value
outside `long` is clamped, and storing it in an `int` keeps its low 32 bits. Text up
to a given character is read by the scan sets of `sscanf`.
-/
namespace TlpiExercises.CText

/-- The bytes of a text. -/
def ascii (s : String) : List UInt8 := s.toList.map fun c => UInt8.ofNat c.toNat

/-- The characters of a buffer up to its first zero. -/
def cString (buffer : List UInt8) : List UInt8 := buffer.takeWhile (· ≠ 0)

def isspace (c : UInt8) : Bool := c = 32 || (9 ≤ c && c ≤ 13)

def isdigit (c : UInt8) : Bool := 48 ≤ c && c ≤ 57

/-- The value of a run of digits. -/
def digitsVal (ds : List UInt8) : ℕ := ds.foldl (fun acc d => 10 * acc + (d.toNat - 48)) 0

/-- An optional sign: whether the number is negative, and the rest. -/
def takeSign : List UInt8 → Bool × List UInt8
  | [] => (false, [])
  | c :: s => if c = 45 then (true, s) else if c = 43 then (false, s) else (false, c :: s)

/-- The integer at the start of a string and what follows it, if there is one. -/
def scanInt (s : List UInt8) : Option (ℤ × List UInt8) :=
  let signed := takeSign (s.dropWhile isspace)
  let ds := signed.2.takeWhile isdigit
  if ds = [] then none
  else some (if signed.1 then -(digitsVal ds : ℤ) else digitsVal ds, signed.2.dropWhile isdigit)

/-- `LONG_MIN` and `LONG_MAX` bound what `strtol` returns. -/
def clampLong (x : ℤ) : ℤ := max (-2 ^ 63) (min x (2 ^ 63 - 1))

def strtol (s : List UInt8) : ℤ := ((scanInt s).map fun r => clampLong r.1).getD 0

/-- The `long` that `strtol` returns, kept in 32 bits. -/
def atoi (s : List UInt8) : Int32 := Int32.ofInt (strtol s)

/-- The directives of a scan format: `%c`, white space and `%d`. -/
inductive Directive where
  | char
  | space
  | int
  deriving DecidableEq, Repr

/-- A value stored by a conversion. -/
inductive Item where
  | char (c : UInt8)
  | int (x : Int32)
  deriving DecidableEq, Repr

/-- `sscanf`: the values stored, in order, up to the first directive that fails. -/
def sscanf : List Directive → List UInt8 → List Item
  | [], _ => []
  | .char :: _, [] => []
  | .char :: ds, c :: s => .char c :: sscanf ds s
  | .space :: ds, s => sscanf ds (s.dropWhile isspace)
  | .int :: ds, s =>
      match scanInt s with
      | none => []
      | some (x, rest) => .int (Int32.ofInt (clampLong x)) :: sscanf ds rest

/-- The directives of a scan format for text: `%[^c]`, a character and white space. -/
inductive TextDirective where
  | upTo (c : UInt8)
  | literal (c : UInt8)
  | space
  deriving DecidableEq, Repr

/-- `sscanf` for such a format: the strings stored, in order, up to the first directive
that fails. A scan set has to match at least one character. -/
def sscanfText : List TextDirective → List UInt8 → List (List UInt8)
  | [], _ => []
  | .upTo c :: ds, s =>
      let t := s.takeWhile (· ≠ c)
      if t = [] then [] else t :: sscanfText ds (s.dropWhile (· ≠ c))
  | .literal _ :: _, [] => []
  | .literal c :: ds, b :: s => if b = c then sscanfText ds s else []
  | .space :: ds, s => sscanfText ds (s.dropWhile isspace)

/-- What `%[^c]` takes off a text. -/
def scanKey (c : UInt8) (s : List UInt8) : List UInt8 := s.takeWhile (· ≠ c)

/-- What is left for `%[^d]` after a key up to `c`, the `c` and white space. -/
def scanValue (c d : UInt8) (s : List UInt8) : List UInt8 :=
  (((s.dropWhile (· ≠ c)).drop 1).dropWhile isspace).takeWhile (· ≠ d)

/-- `snprintf`: what is left of the output in a buffer of `n` bytes. -/
def snprintf (n : ℕ) (output : List UInt8) : List UInt8 := output.take (n - 1)

/-- The digits of a natural number, most significant first. -/
def decimal (n : ℕ) : List UInt8 := (Nat.toDigits 10 n).map fun c => UInt8.ofNat c.toNat

/-- `%d`. -/
def printInt (x : ℤ) : List UInt8 := if x < 0 then 45 :: decimal x.natAbs else decimal x.natAbs

theorem cString_append_of_notMem {u : List UInt8} (h : 0 ∉ u) (v : List UInt8) :
    cString (u ++ v) = u ++ cString v := by
  have hall : ∀ c ∈ u, decide (c ≠ 0) = true := by
    intro c hc
    have hne : c ≠ 0 := fun he => h (he ▸ hc)
    simpa using hne
  rw [cString, List.takeWhile_append_of_pos hall, cString]

theorem cString_append_of_mem {u : List UInt8} (h : 0 ∈ u) (v : List UInt8) :
    cString (u ++ v) = cString u := by
  have hshort : (u.takeWhile (· ≠ 0)).length ≠ u.length := by
    intro hlen
    have hall := List.takeWhile_eq_self_iff.mp (List.takeWhile_prefix _ |>.eq_of_length hlen)
    simpa using hall 0 h
  rw [cString, List.takeWhile_append, if_neg hshort, cString]

theorem cString_eq_self {text : List UInt8} (h : 0 ∉ text) : cString text = text := by
  simpa [cString] using cString_append_of_notMem h []

/-- A zero ends the string, whatever stands behind it. -/
theorem cString_append_zero (text rest : List UInt8) :
    cString (text ++ 0 :: rest) = cString text := by
  by_cases h : 0 ∈ text
  · exact cString_append_of_mem h _
  · rw [cString_append_of_notMem h, cString_eq_self h]
    simp [cString]

theorem cString_terminated {text : List UInt8} (h : 0 ∉ text) : cString (text ++ [0]) = text := by
  rw [cString_append_zero, cString_eq_self h]

theorem zero_notMem_cString (buf : List UInt8) : 0 ∉ cString buf := by
  intro hmem
  simpa using List.mem_takeWhile_imp hmem

/-- Text without `c`, followed by `c`, is what `%[^c]` takes. -/
theorem span_ne {text : List UInt8} {c : UInt8} (h : c ∉ text) (rest : List UInt8) :
    (text ++ c :: rest).takeWhile (· ≠ c) = text ∧
      (text ++ c :: rest).dropWhile (· ≠ c) = c :: rest := by
  have hall : ∀ b ∈ text, decide (b ≠ c) = true := by
    intro b hb
    have hne : b ≠ c := fun he => h (he ▸ hb)
    simpa using hne
  rw [List.takeWhile_append_of_pos hall, List.dropWhile_append_of_pos hall]
  simp

/-- Every string stored is part of the text. -/
theorem sublist_of_mem_sscanfText {ds : List TextDirective} {s w : List UInt8}
    (h : w ∈ sscanfText ds s) : w.Sublist s := by
  fun_induction sscanfText ds s with
  | case1 s => simp at h
  | case2 s c ds t ht => simp at h
  | case3 s c ds t ht ih =>
      rcases List.mem_cons.mp h with rfl | h
      · exact List.takeWhile_sublist _
      · exact (ih h).trans (List.dropWhile_sublist _)
  | case4 c ds => simp at h
  | case5 ds b s ih => exact (ih h).cons b
  | case6 c ds b s hb => simp at h
  | case7 s ds ih => exact (ih h).trans (List.dropWhile_sublist _)

theorem sscanfText_literal (c : UInt8) (s : List UInt8) : sscanfText [.literal c] s = [] := by
  cases s <;> simp [sscanfText]

/-- The strings a format `%[^c]c %[^d]` stores: both, the first, or none. -/
theorem sscanfText_keyValue {ds : List TextDirective} (hds : ∀ s, sscanfText ds s = [])
    (c d : UInt8) (s : List UInt8) :
    sscanfText (.upTo c :: .literal c :: .space :: .upTo d :: ds) s =
      if scanKey c s = [] then []
      else if scanValue c d s = [] then [scanKey c s] else [scanKey c s, scanValue c d s] := by
  have hrest : sscanfText (.literal c :: .space :: .upTo d :: ds) (s.dropWhile (· ≠ c)) =
      if scanValue c d s = [] then [] else [scanValue c d s] := by
    rw [scanValue]
    cases hdrop : s.dropWhile (· ≠ c) with
    | nil => rfl
    | cons b t =>
        obtain rfl : b = c := by
          have hne : s.dropWhile (fun a => decide (a ≠ c)) ≠ [] := hdrop ▸ List.cons_ne_nil b t
          have hhead := List.head_dropWhile_not (fun a => decide (a ≠ c)) hne
          simp only [hdrop, List.head_cons] at hhead
          simpa using hhead
        simp only [sscanfText, hds, if_true, List.drop_succ_cons, List.drop_zero]
  rw [sscanfText, hrest, scanKey]
  split_ifs <;> rfl

theorem digitsVal_append (ds : List UInt8) (d : UInt8) :
    digitsVal (ds ++ [d]) = 10 * digitsVal ds + (d.toNat - 48) := by
  simp [digitsVal]

theorem decimal_eq (n : ℕ) :
    decimal n = if n < 10 then [UInt8.ofNat (48 + n)]
      else decimal (n / 10) ++ [UInt8.ofNat (48 + n % 10)] := by
  rw [decimal, Nat.toDigits_eq_if (by decide)]
  split_ifs with h
  · simp [Nat.toNat_digitChar_of_lt_ten h]
  · simp [decimal, Nat.toNat_digitChar_of_lt_ten (Nat.mod_lt n (by decide))]

theorem digit_toNat {d : ℕ} (h : d < 10) : (UInt8.ofNat (48 + d)).toNat = 48 + d := by
  simp
  omega

theorem isdigit_iff {c : UInt8} : isdigit c ↔ 48 ≤ c.toNat ∧ c.toNat ≤ 57 := by
  simp [isdigit, UInt8.le_iff_toNat_le]

theorem isdigit_digit {d : ℕ} (h : d < 10) : isdigit (UInt8.ofNat (48 + d)) := by
  rw [isdigit_iff, digit_toNat h]
  omega

@[simp] theorem decimal_ne_nil (n : ℕ) : decimal n ≠ [] := by
  simp [decimal]

theorem isdigit_of_mem_decimal {n : ℕ} {c : UInt8} (h : c ∈ decimal n) : isdigit c := by
  induction n using Nat.strong_induction_on with
  | _ n ih =>
      rw [decimal_eq] at h
      split_ifs at h with hn
      · rw [List.mem_singleton.mp h]
        exact isdigit_digit hn
      · rcases List.mem_append.mp h with h | h
        · exact ih (n / 10) (by omega) h
        · rw [List.mem_singleton.mp h]
          exact isdigit_digit (Nat.mod_lt n (by decide))

/-- Reading back the digits of a number gives the number. -/
theorem digitsVal_decimal (n : ℕ) : digitsVal (decimal n) = n := by
  induction n using Nat.strong_induction_on with
  | _ n ih =>
      rw [decimal_eq]
      split_ifs with hn
      · simp only [digitsVal, List.foldl_cons, List.foldl_nil, digit_toNat hn]
        omega
      · rw [digitsVal_append, ih (n / 10) (by omega), digit_toNat (Nat.mod_lt n (by decide))]
        omega

theorem decimal_length_le {n k : ℕ} (hk : 0 < k) (h : n < 10 ^ k) : (decimal n).length ≤ k := by
  rw [decimal, List.length_map]
  exact (Nat.length_toDigits_le_iff (by decide) hk).mpr h

/-- A decimal numeral: an optional sign and at least one digit. -/
inductive IsNumeral : List UInt8 → ℤ → Prop
  | unsigned {ds : List UInt8} : ds ≠ [] → (∀ d ∈ ds, isdigit d) → IsNumeral ds (digitsVal ds)
  | plus {ds : List UInt8} : ds ≠ [] → (∀ d ∈ ds, isdigit d) → IsNumeral (43 :: ds) (digitsVal ds)
  | minus {ds : List UInt8} : ds ≠ [] → (∀ d ∈ ds, isdigit d) →
      IsNumeral (45 :: ds) (-(digitsVal ds : ℤ))

/-- Only digits and signs occur in a numeral. -/
theorem IsNumeral.notMem {t : List UInt8} {x : ℤ} (h : IsNumeral t x) {c : UInt8}
    (hdigit : isdigit c = false) (hplus : c ≠ 43) (hminus : c ≠ 45) : c ∉ t := by
  have hnot : ∀ {ds : List UInt8}, (∀ d ∈ ds, isdigit d) → c ∉ ds := by
    intro ds hds hmem
    rw [hds c hmem] at hdigit
    contradiction
  cases h with
  | unsigned hne hds => exact hnot hds
  | plus hne hds => simpa [hplus] using hnot hds
  | minus hne hds => simpa [hminus] using hnot hds

theorem IsNumeral.ne_nil {t : List UInt8} {x : ℤ} (h : IsNumeral t x) : t ≠ [] := by
  cases h with
  | unsigned hne hds => exact hne
  | plus hne hds => exact List.cons_ne_nil _ _
  | minus hne hds => exact List.cons_ne_nil _ _

/-- A numeral of one byte is a digit. -/
theorem IsNumeral.of_length_one {t : List UInt8} {x : ℤ} (h : IsNumeral t x)
    (hlen : t.length = 1) : 0 ≤ x ∧ x ≤ 9 := by
  cases h with
  | unsigned hne hds =>
      obtain ⟨d, rfl⟩ := List.length_eq_one_iff.mp hlen
      have hd := isdigit_iff.mp (hds d (List.mem_singleton_self d))
      simp only [digitsVal, List.foldl_cons, List.foldl_nil]
      omega
  | plus hne hds => simp [hne] at hlen
  | minus hne hds => simp [hne] at hlen

theorem isNumeral_printInt (x : ℤ) : IsNumeral (printInt x) x := by
  have hdigits : ∀ d ∈ decimal x.natAbs, isdigit d := fun d hd => isdigit_of_mem_decimal hd
  by_cases h : x < 0
  · have hnum := IsNumeral.minus (decimal_ne_nil x.natAbs) hdigits
    rw [digitsVal_decimal] at hnum
    rw [printInt, if_pos h]
    convert hnum using 1
    omega
  · have hnum := IsNumeral.unsigned (decimal_ne_nil x.natAbs) hdigits
    rw [digitsVal_decimal] at hnum
    rw [printInt, if_neg h]
    convert hnum using 1
    omega

theorem zero_notMem_printInt (x : ℤ) : 0 ∉ printInt x :=
  (isNumeral_printInt x).notMem (by decide) (by decide) (by decide)

theorem head_not_digit {c : UInt8} (h : isdigit c = false) (rest : List UInt8) :
    ∀ d ∈ (c :: rest).head?, isdigit d = false := by
  simpa using h

/-- Digits, followed by something else, are taken as one run. -/
theorem span_digits {ds rest : List UInt8} (hds : ∀ d ∈ ds, isdigit d)
    (hrest : ∀ c ∈ rest.head?, isdigit c = false) :
    (ds ++ rest).takeWhile isdigit = ds ∧ (ds ++ rest).dropWhile isdigit = rest := by
  rw [List.takeWhile_append_of_pos hds, List.dropWhile_append_of_pos hds]
  cases rest with
  | nil => simp
  | cons c rest => simp [hrest c (by simp)]

/-- A digit is neither a sign nor white space. -/
theorem isdigit_ne {c : UInt8} (h : isdigit c) : c ≠ 45 ∧ c ≠ 43 ∧ isspace c = false := by
  rw [isdigit_iff] at h
  refine ⟨?_, ?_, ?_⟩
  · rintro rfl
    exact absurd h.1 (by decide)
  · rintro rfl
    exact absurd h.1 (by decide)
  · simp only [isspace, Bool.or_eq_false_iff, Bool.and_eq_false_iff, decide_eq_false_iff_not,
      UInt8.le_iff_toNat_le, ← UInt8.toNat_inj]
    simp
    omega

theorem IsNumeral.head_not_space {c : UInt8} {t : List UInt8} {x : ℤ} (h : IsNumeral (c :: t) x) :
    isspace c = false := by
  cases h with
  | unsigned hne hds => exact (isdigit_ne (hds c (by simp))).2.2
  | plus hne hds => rfl
  | minus hne hds => rfl

/-- After its sign, a run of digits is read with its value. -/
theorem scanInt_of_signed (neg : Bool) {s ds rest : List UInt8}
    (hsign : takeSign (s.dropWhile isspace) = (neg, ds ++ rest)) (hne : ds ≠ [])
    (hds : ∀ d ∈ ds, isdigit d) (hrest : ∀ c ∈ rest.head?, isdigit c = false) :
    scanInt s = some (if neg then -(digitsVal ds : ℤ) else digitsVal ds, rest) := by
  obtain ⟨htake, hdrop⟩ := span_digits hds hrest
  simp only [scanInt, hsign, htake, hdrop, if_neg hne]

/-- A numeral is read back with its value, up to the next non-digit. -/
theorem scanInt_numeral {t : List UInt8} {x : ℤ} (h : IsNumeral t x) (ws : List UInt8)
    {rest : List UInt8} (hws : ∀ c ∈ ws, isspace c) (hrest : ∀ c ∈ rest.head?, isdigit c = false) :
    scanInt (ws ++ (t ++ rest)) = some (x, rest) := by
  cases h with
  | unsigned hne hds =>
      refine scanInt_of_signed false ?_ hne hds hrest
      cases t with
      | nil => contradiction
      | cons d ds =>
          obtain ⟨hminus, hplus, hspace⟩ := isdigit_ne (hds d (by simp))
          rw [List.dropWhile_append_of_pos hws]
          simp [hspace, takeSign, hminus, hplus]
  | plus hne hds =>
      refine scanInt_of_signed false ?_ hne hds hrest
      rw [List.dropWhile_append_of_pos hws]
      simp [isspace, takeSign]
  | minus hne hds =>
      refine scanInt_of_signed true ?_ hne hds hrest
      rw [List.dropWhile_append_of_pos hws]
      simp [isspace, takeSign]

/-- A printed number is read back with its value. -/
theorem scanInt_printInt (x : ℤ) {c : UInt8} (hc : isdigit c = false) (rest : List UInt8) :
    scanInt (printInt x ++ c :: rest) = some (x, c :: rest) :=
  scanInt_numeral (isNumeral_printInt x) [] (by simp) (head_not_digit hc rest)

theorem clampLong_eq {x : ℤ} (hl : -2 ^ 63 ≤ x) (hr : x < 2 ^ 63) : clampLong x = x := by
  rw [clampLong, min_eq_left (by omega), max_eq_right hl]

@[simp] theorem clampLong_toInt (x : Int32) : clampLong x.toInt = x.toInt := by
  have hl := x.le_toInt
  have hr := x.toInt_lt
  exact clampLong_eq (by omega) (by omega)

/-- A sum of `int`s that does not overflow. -/
theorem toInt_add_of_le {x y : Int32} (hl : -2 ^ 31 ≤ x.toInt + y.toInt)
    (hr : x.toInt + y.toInt < 2 ^ 31) : (x + y).toInt = x.toInt + y.toInt := by
  rw [Int32.toInt_add]
  exact Int.bmod_eq_of_le (by omega) (by omega)

/-- `atoi` gives the `int` whose numeral a text starts with. -/
theorem atoi_numeral {t : List UInt8} {x : Int32} (h : IsNumeral t x.toInt) {rest : List UInt8}
    (hrest : ∀ c ∈ rest.head?, isdigit c = false) : atoi (t ++ rest) = x := by
  have hscan : scanInt (t ++ rest) = some (x.toInt, rest) := scanInt_numeral h [] (by simp) hrest
  simp only [atoi, strtol, hscan, Option.map_some, clampLong_toInt, Option.getD_some,
    Int32.ofInt_toInt]

theorem atoi_printInt (x : Int32) : atoi (printInt x.toInt) = x := by
  rw [← List.append_nil (printInt x.toInt)]
  exact atoi_numeral (isNumeral_printInt x.toInt) (by simp)

@[simp] theorem scanInt_dropWhile (s : List UInt8) : scanInt (s.dropWhile isspace) = scanInt s := by
  simp only [scanInt, List.dropWhile_idempotent]

/-- White space and an `int` in the format take an `int` off the text. -/
theorem sscanf_int {t : List UInt8} {x : Int32} (h : IsNumeral t x.toInt) {rest : List UInt8}
    (hrest : ∀ c ∈ rest.head?, isdigit c = false) (ds : List Directive) :
    sscanf (.space :: .int :: ds) (32 :: (t ++ rest)) = .int x :: sscanf ds rest := by
  have hscan : scanInt (32 :: (t ++ rest)) = some (x.toInt, rest) :=
    scanInt_numeral h [32] (by simp [isspace]) hrest
  simp only [sscanf, scanInt_dropWhile, hscan, clampLong_toInt, Int32.ofInt_toInt]

/-- Exactly the numbers up to nine are printed with one byte. -/
theorem printInt_length_one {x : ℤ} (h : 0 ≤ x) : (printInt x).length = 1 ↔ x ≤ 9 := by
  rw [printInt, if_neg (by omega)]
  constructor
  · intro hlen
    by_contra hx
    rw [decimal_eq, if_neg (by omega), List.length_append, List.length_singleton] at hlen
    have hpos := List.length_pos_iff.mpr (decimal_ne_nil (x.natAbs / 10))
    omega
  · intro hx
    rw [decimal_eq, if_pos (by omega), List.length_singleton]

theorem printInt_length_le (x : Int32) : (printInt x.toInt).length ≤ 11 := by
  have hl := x.le_toInt
  have hr := x.toInt_lt
  have hlen : (decimal x.toInt.natAbs).length ≤ 10 := decimal_length_le (by decide) (by omega)
  rw [printInt]
  split_ifs
  · rw [List.length_cons]
    omega
  · omega

end TlpiExercises.CText
