import TlpiExercises.Tail

/-!
# Bounds and relations between runs of `tail`

How far the scan of `tail` stays inside the array of blocks, and how its output depends on
the block size, which the file system chooses, and on the number of lines, which
`readOpts` takes from the command line.
-/
namespace TlpiExercises.Tail
open CText

/-- What `getopt` returns, with `optarg`. -/
inductive Opt where
  | n (optarg : List UInt8)
  | h
  | other
  deriving DecidableEq, Repr

/-- The loop over the options, `none` when the program exits. -/
def readOptsLoop : List Opt → Int32 → Option Int32
  | [], n => some n
  | .n optarg :: opts, _ => readOptsLoop opts (atoi optarg)
  | .h :: _, _ => none
  | .other :: _, _ => none

/-- The number of lines `readOpts` stores for a command line of `argc` words with these
options. -/
def readOpts (argc : ℕ) (opts : List Opt) : Option Int32 :=
  if argc < 2 then none else readOptsLoop opts 10

/-- The number of lines as the scan tells it apart: `linesCount` starts at one, so it never
meets an `n` below one, and zero stands for all of these. -/
def requested (n : Int32) : ℕ := n.toInt.toNat

theorem eq_requested_iff {linesCount : ℕ} (h : 1 ≤ linesCount) (n : Int32) :
    linesCount = requested n ↔ (linesCount : ℤ) = n.toInt := by
  rw [requested]
  omega

section Bounds

variable {content : List UInt8} {n : ℕ}

/-- Every block is read into the array, and the place found is in a block that was read. -/
def InTables (n : Int32) (fBsize : ℕ) (content : List UInt8) : Prop :=
  match locate (requested n) (bufferSize fBsize) content maxBuffersCnt content.length [] 1 with
  | .exited => True
  | .outOfRange => False
  | .done place =>
      0 ≤ place.initBuf ∧
        ∃ b, place.buffers[place.initBuf.toNat]? = some b ∧ place.initBufPos ≤ b.length

theorem Place.At.in_block {place : Place} {size : ℕ} {rest : List (List UInt8)} {b : List UInt8}
    (h : place.At size rest b) :
    0 ≤ place.initBuf ∧
      ∃ b, place.buffers[place.initBuf.toNat]? = some b ∧ place.initBufPos ≤ b.length := by
  obtain ⟨more, hbuffers⟩ := h.buffers
  refine ⟨by rw [h.initBuf]; omega, b, ?_, h.initBufPos⟩
  simp [hbuffers, h.initBuf]

/-- Blocks of no bytes never get the scan to the start of the file. -/
theorem locate_size_zero (slots : ℕ) {filePos : ℕ} (hpos : filePos ≠ 0)
    (buffers : List (List UInt8)) (linesCount : ℕ) :
    locate n 0 content slots filePos buffers linesCount = .outOfRange := by
  induction slots generalizing buffers with
  | zero => rfl
  | succ slots ih =>
      have hread : readBuf content filePos 0 = some (filePos, []) := by simp [readBuf]
      simp only [locate, hread, List.length_nil, scanBlock, if_neg hpos]
      exact ih _

theorem readBuf_negative {filePos : ℕ} {bufSize : ℤ} (h : bufSize < 0) :
    readBuf content filePos bufSize = none := by
  simp only [readBuf]
  rw [if_neg (by omega)]

theorem PrintsFrom.zero {k : ℕ} (h : PrintsFrom 0 content k) : k = 0 := by
  rcases h with ⟨-, hzero⟩ | ⟨hzero, -⟩ | ⟨i, -, hi, hcount⟩
  · exact hzero
  · exact hzero
  · have hmono : Nat.count (LineEnd content) (i + 1) ≤ Nat.count (LineEnd content) content.length :=
      Nat.count_monotone _ hi.2.le
    rw [Nat.count_succ, if_pos hi] at hmono
    omega

/-- The scan stays inside its tables exactly if the block size is negative, which ends the
program, or the file fits into the blocks there are, or the last `n` lines and the
newline before them do. -/
theorem scan_inTables_iff (n : Int32) (fBsize : ℕ) (content : List UInt8) :
    InTables n fBsize content ↔
      bufferSize fBsize < 0 ∨ content.length ≤ maxBuffersCnt * bufferSize fBsize ∨
        (1 ≤ n.toInt ∧
          (lastLines (requested n) content).length < maxBuffersCnt * bufferSize fBsize) := by
  rw [InTables]
  rcases lt_trichotomy (bufferSize fBsize) 0 with hneg | hzero | hpos
  · refine iff_of_true ?_ (.inl hneg)
    rw [locate, readBuf_negative hneg]
    trivial
  · rw [hzero]
    by_cases hempty : content = []
    · subst hempty
      exact iff_of_true ⟨le_rfl, [], by simp, le_rfl⟩ (.inr (.inl (by simp)))
    · have hlen := List.length_pos_of_ne_nil hempty
      rw [locate_size_zero _ hlen.ne']
      exact iff_of_false id (by omega)
  · obtain ⟨k, hk⟩ := exists_printsFrom (requested n) content
    have hle := hk.le_length
    have hlines : 1 ≤ n.toInt → (lastLines (requested n) content).length = content.length - k := by
      intro hn
      rw [hk.lastLines_eq (by rw [requested]; omega), List.length_drop]
    have hall : ¬ 1 ≤ n.toInt → k = 0 := by
      intro hn
      rw [show requested n = 0 by rw [requested]; omega] at hk
      exact hk.zero
    have hspec := locate_spec hpos hk maxBuffersCnt (cut_empty content _) (.inl (by decide)) hle rfl
    simp only [maxBuffersCnt] at hspec ⊢
    rcases hspec with ⟨hfar, hmore, hrun⟩ | ⟨hroom, place, hrun, ⟨rest, b, hat⟩, -⟩
    · rw [hrun]
      exact iff_of_false id (by omega)
    · rw [hrun]
      exact iff_of_true hat.in_block (by omega)

/-- Of a line of 1001 bytes in blocks of one byte, a block is read behind the array. -/
theorem scan_leaves_tables : ¬ InTables 10 1 (List.replicate 1001 97) := by
  have hk : PrintsFrom (requested 10) (List.replicate 1001 97) 0 := by
    refine .inr (.inl ⟨rfl, ?_⟩)
    have hnone : ∀ i, ¬ LineEnd (List.replicate 1001 97) i := by
      intro i hi
      exact absurd (List.mem_replicate.mp (List.mem_of_getElem? hi.1)).2 (by decide)
    rw [Nat.count_iff_forall_not.mpr (fun i _ => hnone i)]
    decide
  have hsize : bufferSize 1 = 1 := by decide
  have hspec := locate_spec (show (1 : ℤ) ≤ 1 by decide) hk maxBuffersCnt (cut_empty _ _)
    (.inl (by decide)) (Nat.zero_le _) rfl
  rw [List.length_replicate] at hspec
  rcases hspec with ⟨-, -, hrun⟩ | ⟨hroom, -⟩
  · rw [InTables, hsize, List.length_replicate, hrun]
    exact id
  · rcases hroom with hroom | hroom <;> exact absurd hroom (by decide)

end Bounds

section BlockSizes

/-- What the blocks behind the first one with a zero show, each up to its own first zero. -/
def behindNul (bs : List (List UInt8)) : List UInt8 :=
  ((bs.dropWhile (0 ∉ ·)).drop 1).flatMap cString

theorem behindNul_cons_of_mem {b : List UInt8} (h : 0 ∈ b) (bs : List (List UInt8)) :
    behindNul (b :: bs) = bs.flatMap cString := by
  rw [behindNul, List.dropWhile_cons_of_neg (by simpa using h)]
  rfl

theorem behindNul_cons_of_notMem {b : List UInt8} (h : 0 ∉ b) (bs : List (List UInt8)) :
    behindNul (b :: bs) = behindNul bs := by
  rw [behindNul, List.dropWhile_cons_of_pos (by simpa using h), behindNul]

@[simp] theorem behindNul_nil : behindNul [] = [] := rfl

@[simp] theorem behindNul_singleton (b : List UInt8) : behindNul [b] = [] := by
  by_cases h : 0 ∈ b
  · rw [behindNul_cons_of_mem h, List.flatMap_nil]
  · rw [behindNul_cons_of_notMem h, behindNul_nil]

/-- Blocks shown up to a zero are the text up to its first zero and what follows behind it. -/
theorem flatMap_cString_eq (bs : List (List UInt8)) :
    bs.flatMap cString = cString bs.flatten ++ behindNul bs := by
  induction bs with
  | nil => rfl
  | cons b bs ih =>
      rw [List.flatMap_cons, List.flatten_cons]
      by_cases h : 0 ∈ b
      · rw [cString_append_of_mem h, behindNul_cons_of_mem h]
      · rw [cString_append_of_notMem h, cString_eq_self h, ih, List.append_assoc,
          behindNul_cons_of_notMem h]

theorem behindNul_append_singleton (bs : List (List UInt8)) (b : List UInt8) :
    behindNul (bs ++ [b]) = behindNul bs ++ if 0 ∈ bs.flatten then cString b else [] := by
  induction bs with
  | nil => simp
  | cons a bs ih =>
      rw [List.cons_append, List.flatten_cons]
      by_cases h : 0 ∈ a
      · simp [behindNul_cons_of_mem h, h]
      · simp [behindNul_cons_of_notMem h, ih, h]

theorem cString_eq_nil_iff {b : List UInt8} (h : b ≠ []) : cString b = [] ↔ b[0]? = some 0 := by
  cases b with
  | nil => contradiction
  | cons x b => simp [cString, List.takeWhile_cons]

/-- The starts of the blocks but the first, from the end: that of the last block, and those
of the text without it. -/
theorem forall_starts_iff {len size : ℕ} (h : size < len) (P : ℕ → Prop) :
    (∀ q, 1 ≤ q → q * size < len → P (len - q * size)) ↔
      (∀ q, 1 ≤ q → q * size < len - size → P (len - size - q * size)) ∧ P (len - size) := by
  have hsucc : ∀ q, len - (q + 1) * size = len - size - q * size := by
    intro q
    rw [Nat.succ_mul]
    omega
  constructor
  · intro hall
    refine ⟨fun q hq hlt => ?_, by simpa using hall 1 le_rfl (by omega)⟩
    rw [← hsucc]
    exact hall (q + 1) (by omega) (by rw [Nat.succ_mul]; omega)
  · rintro ⟨hbefore, hlast⟩ q hq hlt
    obtain ⟨p, rfl⟩ := Nat.exists_eq_add_of_le' hq
    rw [hsucc]
    rcases Nat.eq_zero_or_pos p with rfl | hp
    · simpa using hlast
    · rw [Nat.succ_mul] at hlt
      exact hbefore p hp (by omega)

/-- Nothing is shown behind the first zero if every block that starts behind it starts
with a zero. -/
theorem behindNul_blocks_eq_nil_iff {size : ℕ} (hsize : 0 < size) (text : List UInt8) :
    behindNul (blocks size text) = [] ↔
      ∀ q, 1 ≤ q → q * size < text.length → 0 ∈ text.take (text.length - q * size) →
        text[text.length - q * size]? = some 0 := by
  fun_induction blocks size text with
  | case1 text h =>
      refine iff_of_true (behindNul_singleton text) ?_
      intro q hq hlt
      have hle : size ≤ q * size := Nat.le_mul_of_pos_left size hq
      omega
  | case2 text h ih =>
      have hlen : (text.take (text.length - size)).length = text.length - size := by simp
      have hblock : text.drop (text.length - size) ≠ [] := by
        rw [Ne, List.drop_eq_nil_iff]
        omega
      have hfirst : (text.drop (text.length - size))[0]? = text[text.length - size]? := by
        rw [List.getElem?_drop, Nat.add_zero]
      rw [behindNul_append_singleton, List.append_eq_nil_iff, flatten_blocks, ih, hlen,
        ite_eq_right_iff, cString_eq_nil_iff hblock, hfirst,
        forall_starts_iff (by omega) fun j => 0 ∈ text.take j → text[j]? = some 0]
      -- a block that starts before the last one is a block of the text without it
      refine and_congr_left fun _ => forall₃_congr fun q hq hlt => ?_
      have hpos := Nat.mul_pos hq hsize
      rw [List.take_take, min_eq_left (by omega), List.getElem?_take_of_lt (by omega)]

/-- The file spans no more blocks of this size than the array holds. -/
def Spans (bufSize : ℤ) (content : List UInt8) : Prop :=
  1 ≤ bufSize ∧ content.length ≤ maxBuffersCnt * bufSize

instance (bufSize : ℤ) (content : List UInt8) : Decidable (Spans bufSize content) :=
  inferInstanceAs (Decidable (_ ∧ _))

theorem Spans.of_le {content : List UInt8} {size : ℕ} (hpos : 1 ≤ size)
    (hle : content.length ≤ maxBuffersCnt * size) : Spans size content := by
  simp only [Spans, maxBuffersCnt] at hle ⊢
  omega

/-- What is printed, apart from the zero bytes: the last `n` lines up to the first zero, and
what the blocks show behind it. -/
theorem tailBlocks_eq_behindNul {content : List UInt8} {n : ℕ} {bufSize : ℤ} (hn : 1 ≤ n)
    (hspans : Spans bufSize content) :
    tailBlocks n bufSize content = some (cString (lastLines n content) ++
      behindNul (blocks bufSize.toNat (lastLines n content)) ++ [newline]) := by
  obtain ⟨k, hk⟩ := exists_printsFrom n content
  rw [tailBlocks_eq hk hspans.1 hspans.2, ← hk.lastLines_eq hn, flatMap_cString_eq, flatten_blocks]

theorem bufferSize_eq {fBsize : ℕ} (h : fBsize < 2 ^ 31) : bufferSize fBsize = fBsize :=
  Int32.toInt_ofNat_of_lt h

theorem length_lastLines_le {n : ℕ} (hn : 1 ≤ n) (content : List UInt8) :
    (lastLines n content).length ≤ content.length := by
  obtain ⟨k, hk⟩ := exists_printsFrom n content
  rw [hk.lastLines_eq hn, List.length_drop]
  omega

/-- Behind the first zero of the last `n` lines there are only zeros, up to the last
thousandth of the file. -/
def ZerosBehind (n : ℕ) (content : List UInt8) : Prop :=
  ∀ j < (lastLines n content).length, 0 ∈ (lastLines n content).take j →
    content.length ≤ maxBuffersCnt * ((lastLines n content).length - j) →
      (lastLines n content)[j]? = some 0

instance (n : ℕ) (content : List UInt8) : Decidable (ZerosBehind n content) :=
  inferInstanceAs (Decidable (∀ j < _, _ → _ → _))

section Sizes

variable {content : List UInt8} {n : ℕ}

/-- Then no blocks show anything behind the first zero. -/
theorem ZerosBehind.behindNul_eq_nil (h : ZerosBehind n content) {bufSize : ℤ}
    (hspans : Spans bufSize content) :
    behindNul (blocks bufSize.toNat (lastLines n content)) = [] := by
  obtain ⟨hsize, hspan⟩ := hspans
  refine (behindNul_blocks_eq_nil_iff (by omega) _).mpr ?_
  intro q hq hlt hmem
  have hle : bufSize.toNat ≤ q * bufSize.toNat := Nat.le_mul_of_pos_left _ hq
  refine h _ (by omega) hmem ?_
  simp only [maxBuffersCnt] at hspan ⊢
  omega

/-- Among sizes of which one shows nothing behind the first zero, all print the same only if
every block that starts behind it starts with a zero. -/
theorem start_of_same (hn : 1 ≤ n) {whole : ℤ} (hwhole : Spans whole content)
    (hnone : behindNul (blocks whole.toNat (lastLines n content)) = []) {j : ℕ}
    (hj : j < (lastLines n content).length) (hmem : 0 ∈ (lastLines n content).take j)
    (hspan : content.length ≤ maxBuffersCnt * ((lastLines n content).length - j))
    (hsame : tailBlocks n ((lastLines n content).length - j : ℕ) content =
      tailBlocks n whole content) : (lastLines n content)[j]? = some 0 := by
  -- blocks of which the last one starts at `j`
  have hspans : Spans ((lastLines n content).length - j : ℕ) content := .of_le (by omega) hspan
  rw [tailBlocks_eq_behindNul hn hspans, tailBlocks_eq_behindNul hn hwhole, hnone,
    Int.toNat_natCast] at hsame
  have hnil : behindNul (blocks ((lastLines n content).length - j) (lastLines n content)) = [] := by
    simpa using hsame
  have hpos : j ≠ 0 := by
    rintro rfl
    simp at hmem
  have hstart := (behindNul_blocks_eq_nil_iff (by omega) _).mp hnil 1 le_rfl
  rw [one_mul, Nat.sub_sub_self hj.le] at hstart
  exact hstart (by omega) hmem

/-- A block that reaches back to the first zero shows nothing behind it. -/
theorem behindNul_eq_nil_of_no_zero {size : ℕ} (hsize : 0 < size) {text : List UInt8}
    (h : 0 ∉ text.take (text.length - size)) : behindNul (blocks size text) = [] := by
  refine (behindNul_blocks_eq_nil_iff hsize _).mpr ?_
  intro q hq hlt hmem
  have hle : size ≤ q * size := Nat.le_mul_of_pos_left _ hq
  exact absurd ((List.take_subset_take_left text (by omega)) hmem) h

end Sizes

/-- The output is the same for all sizes of which the file spans no more blocks than the
array holds if and only if behind the first zero of the last `n` lines there are only
zeros, up to the last thousandth of the file. This also holds for the sizes an `int` can
have, if the first zero is among the last `INT_MAX` bytes. -/
theorem tail_ignores_blockSize_iff (content : List UInt8) (n : ℕ) (hn : 1 ≤ n) :
    ((∀ size₁ size₂, Spans size₁ content → Spans size₂ content →
        tailBlocks n size₁ content = tailBlocks n size₂ content) ↔ ZerosBehind n content) ∧
      (0 ∉ (lastLines n content).take ((lastLines n content).length - (2 ^ 31 - 1)) →
        ((∀ f₁ f₂, Spans (bufferSize f₁) content → Spans (bufferSize f₂) content →
          tail n f₁ content = tail n f₂ content) ↔ ZerosBehind n content)) := by
  have hall : ZerosBehind n content → ∀ size₁ size₂, Spans size₁ content → Spans size₂ content →
      tailBlocks n size₁ content = tailBlocks n size₂ content := by
    intro h size₁ size₂ h₁ h₂
    rw [tailBlocks_eq_behindNul hn h₁, tailBlocks_eq_behindNul hn h₂, h.behindNul_eq_nil h₁,
      h.behindNul_eq_nil h₂]
  refine ⟨⟨?_, hall⟩, fun hlate => ⟨?_, fun h f₁ f₂ => hall h _ _⟩⟩
  · -- one block for the whole file
    intro hsame j hj hmem hspan
    have hshort := length_lastLines_le hn content
    have hwhole : Spans content.length content :=
      .of_le (by omega) (Nat.le_mul_of_pos_left _ (by decide))
    refine start_of_same hn hwhole ?_ hj hmem hspan (hsame _ _ (.of_le (by omega) hspan) hwhole)
    exact behindNul_eq_nil_of_no_zero (by omega) (by simp [hshort])
  · -- the longest block
    intro hsame j hj hmem hspan
    have hbehind : (lastLines n content).length - (2 ^ 31 - 1) < j := by
      by_contra! hle
      exact hlate (List.take_subset_take_left _ hle hmem)
    have hsize := bufferSize_eq (show (lastLines n content).length - j < 2 ^ 31 by omega)
    have hmost : bufferSize (2 ^ 31 - 1) = (2 ^ 31 - 1 : ℕ) := bufferSize_eq (by decide)
    have hspans : Spans (bufferSize ((lastLines n content).length - j)) content := by
      rw [hsize]
      exact .of_le (by omega) hspan
    have hwhole : Spans (bufferSize (2 ^ 31 - 1)) content := by
      rw [hmost]
      refine .of_le (by decide) (hspan.trans (Nat.mul_le_mul_left _ (by omega)))
    have hequal := hsame _ _ hspans hwhole
    rw [tail, tail, hsize] at hequal
    refine start_of_same hn hwhole ?_ hj hmem hspan hequal
    rw [hmost]
    exact behindNul_eq_nil_of_no_zero (by decide) hlate

/-- In blocks of two and of three bytes, `ab` and a zero show the same. -/
theorem tail_ignores_blockSize_trailing :
    tailBlocks 1 2 [97, 98, 0] = tailBlocks 1 3 [97, 98, 0] := by
  have hsame := (tail_ignores_blockSize_iff [97, 98, 0] 1 le_rfl).1.mpr (by decide)
  exact hsame 2 3 (by decide) (by decide)

/-- In blocks of one byte `a`, a zero and `b` show as `ab`, in one block as `a`. -/
theorem tail_output_differs :
    tail 1 1 [97, 0, 98] = some [97, 98, 10] ∧ tail 1 4096 [97, 0, 98] = some [97, 10] := by
  decide +kernel

end BlockSizes

section Lines

variable {content : List UInt8}

/-- The last lines of more lines start earlier. -/
theorem PrintsFrom.antitone {n m k l : ℕ} (hn : 1 ≤ n) (hnm : n ≤ m)
    (hk : PrintsFrom n content k) (hl : PrintsFrom m content l) : l ≤ k := by
  rcases hl with ⟨hzero, -⟩ | ⟨rfl, -⟩ | ⟨j, rfl, hj, hm⟩
  · omega
  · exact Nat.zero_le k
  rcases hk with ⟨hzero, -⟩ | ⟨-, hfew⟩ | ⟨i, rfl, hi, hcount⟩
  · omega
  · omega
  by_contra! hlt
  have hmono : Nat.count (LineEnd content) (i + 1) ≤ Nat.count (LineEnd content) j :=
    Nat.count_monotone _ (by omega)
  rw [Nat.count_succ, if_pos hi] at hmono
  omega

theorem PrintsFrom.eq_zero_iff {m l : ℕ} (hm : 1 ≤ m) (h : PrintsFrom m content l) :
    l = 0 ↔ (lineEnds content).length < m := by
  have hlen : (lineEnds content).length = Nat.count (LineEnd content) content.length :=
    length_filter_range content.length
  rw [hlen]
  rcases h with ⟨hzero, -⟩ | ⟨hzero, hfew⟩ | ⟨i, hi, -, hcount⟩
  · omega
  · exact iff_of_true hzero hfew
  · exact iff_of_false (by omega) (by omega)

/-- What the program prints for a command line with these options. -/
def main (argc : ℕ) (opts : List Opt) (fBsize : ℕ) (content : List UInt8) : Option (List UInt8) :=
  (readOpts argc opts).bind fun n => tail (requested n) fBsize content

/-- The text for `n` lines is a suffix of the text for `m` lines exactly if `n` is not zero,
or both are, or the file has no more than `m` lines: for zero lines the whole file is
printed. -/
theorem main_suffix_iff (content : List UInt8) (hzero : 0 ∉ content) (fBsize : ℕ)
    (hsize : 1 ≤ bufferSize fBsize) (hspan : content.length ≤ maxBuffersCnt * bufferSize fBsize)
    (argc₁ argc₂ : ℕ) (opts₁ opts₂ : List Opt) (n m : Int32) (hn : readOpts argc₁ opts₁ = some n)
    (hm : readOpts argc₂ opts₂ = some m) (hpos : 0 ≤ n) (hnm : n ≤ m) :
    (∃ text₁ text₂, main argc₁ opts₁ fBsize content = some text₁ ∧
        main argc₂ opts₂ fBsize content = some text₂ ∧ text₁ <:+ text₂) ↔
      1 ≤ n ∨ m = 0 ∨ (lineEnds content).length < m.toInt := by
  obtain ⟨k, hk⟩ := exists_printsFrom (requested n) content
  obtain ⟨l, hl⟩ := exists_printsFrom (requested m) content
  have hsuffix : content.drop k <:+ content.drop l ↔ l ≤ k := by
    refine ⟨fun h => ?_, List.drop_suffix_drop_left content⟩
    have hle := h.length_le
    have hkle := hk.le_length
    have hlle := hl.le_length
    simp only [List.length_drop] at hle
    omega
  have htexts : (∃ text₁ text₂, main argc₁ opts₁ fBsize content = some text₁ ∧
      main argc₂ opts₂ fBsize content = some text₂ ∧ text₁ <:+ text₂) ↔ l ≤ k := by
    rw [main, main, hn, hm, Option.bind_some, Option.bind_some,
      tail_eq_of_no_zero hzero hk hsize hspan, tail_eq_of_no_zero hzero hl hsize hspan, ← hsuffix]
    constructor
    · rintro ⟨_, _, ⟨⟩, ⟨⟩, h⟩
      exact List.suffix_append_self_iff.mp h
    · intro h
      exact ⟨_, _, rfl, rfl, List.suffix_append_self_iff.mpr h⟩
  rw [Int32.le_iff_toInt_le] at hpos hnm
  rw [htexts, Int32.le_iff_toInt_le, ← Int32.toInt_inj, Int32.toInt_zero, Int32.toInt_one]
  rw [Int32.toInt_zero] at hpos
  by_cases hone : 1 ≤ n.toInt
  · exact iff_of_true (hk.antitone (by rw [requested]; omega) (by simp only [requested]; omega) hl)
      (.inl hone)
  · rw [show requested n = 0 by rw [requested]; omega] at hk
    rw [hk.zero, Nat.le_zero]
    by_cases hm : m.toInt = 0
    · rw [show requested m = 0 by rw [requested]; omega] at hl
      exact iff_of_true hl.zero (.inr (.inl hm))
    · rw [hl.eq_zero_iff (by rw [requested]; omega), requested]
      omega

theorem main_suffix_iff_two :
    ∃ text₁ text₂, main 4 [.n [49]] 2 [97, 10, 98, 10, 99, 10] = some text₁ ∧
      main 4 [.n [50]] 2 [97, 10, 98, 10, 99, 10] = some text₂ ∧ text₁ <:+ text₂ :=
  (main_suffix_iff [97, 10, 98, 10, 99, 10] (by decide) 2 (by decide) (by decide) 4 4 [.n [49]]
    [.n [50]] 1 2 (by decide +kernel) (by decide +kernel) (by decide) (by decide)).mpr
      (.inl (by decide))

/-- With `-n 0` the whole file is printed, with `-n 1` its last line. -/
theorem main_not_suffix :
    main 4 [.n [48]] 4096 [97, 10, 98, 10] = some [97, 10, 98, 10, 10] ∧
      main 4 [.n [49]] 4096 [97, 10, 98, 10] = some [98, 10, 10] ∧
      ¬ [97, 10, 98, 10, 10] <:+ ([98, 10, 10] : List UInt8) := by
  decide +kernel

end Lines

end TlpiExercises.Tail
