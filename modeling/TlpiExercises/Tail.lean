import Mathlib.Data.Nat.Count
import TlpiExercises.CText

/-!
# The last lines of a file

`tail` reads a file backwards in blocks of the file system's size, counts newlines
from the end and prints from behind the one that starts the last `n` lines. The blocks
stay in the array `buffers`, the last one of the file first. The calls succeed and
`read` returns as many bytes as it is asked for; a block beyond the array is an access
out of range.
-/
namespace TlpiExercises.Tail
open CText

/-- `'\n'`. -/
abbrev newline : UInt8 := 10

/-- `MAX_BUFFERS_CNT`. -/
abbrev maxBuffersCnt : ℕ := 1000

/-- `bufferSize = fsInfo.f_bsize`: the block size as an `int`. -/
def bufferSize (fBsize : ℕ) : ℤ := (Int32.ofNat fBsize).toInt

/-- The position before the block that ends at `filePos`, and the block. A negative size is
more than `malloc` can give. -/
def readBuf (content : List UInt8) (filePos : ℕ) (bufSize : ℤ) : Option (ℕ × List UInt8) :=
  let newPos := max 0 (filePos - bufSize)
  if newPos ≤ filePos then some (newPos.toNat, (content.take filePos).drop newPos.toNat) else none

/-- How the loop over a block ends: at the byte `i`, or with this many lines counted. -/
inductive Scan where
  | done (i : ℕ)
  | more (linesCount : ℕ)
  deriving DecidableEq, Repr

/-- The loop over the bytes of `buffers[bufCount]` below `i`, downwards. -/
def scanBlock (n bufCount : ℕ) (block : List UInt8) : ℕ → ℕ → Scan
  | 0, linesCount => .more linesCount
  | i + 1, linesCount =>
      if block[i]? ≠ some newline then scanBlock n bufCount block i linesCount
      else if bufCount = 0 ∧ i = block.length - 1 then scanBlock n bufCount block i linesCount
      else if linesCount = n then .done i
      else scanBlock n bufCount block i (linesCount + 1)

/-- The variables at the label `done`. -/
structure Place where
  buffers : List (List UInt8)
  initBuf : ℤ
  initBufPos : ℕ
  deriving DecidableEq, Repr

/-- How the loop over the blocks ends: in an `errExit` of `readBuf`, with a block read
beyond the array, or at the label `done`. -/
inductive Located where
  | exited
  | outOfRange
  | done (place : Place)
  deriving DecidableEq, Repr

/-- The loop over the blocks, with this many entries of `buffers` left. -/
def locate (n : ℕ) (bufSize : ℤ) (content : List UInt8) :
    ℕ → ℕ → List (List UInt8) → ℕ → Located
  | 0, _, _, _ => .outOfRange
  | slots + 1, filePos, buffers, linesCount =>
      match readBuf content filePos bufSize with
      | none => .exited
      | some (filePos, block) =>
          let bufCount := buffers.length
          let buffers := buffers ++ [block]
          match scanBlock n bufCount block block.length linesCount with
          | .done i =>
              if i + 1 = block.length then .done ⟨buffers, bufCount - 1, 0⟩
              else .done ⟨buffers, bufCount, i + 1⟩
          | .more linesCount =>
              if filePos = 0 then .done ⟨buffers, bufCount, 0⟩
              else locate n bufSize content slots filePos buffers linesCount

/-- The output of the `printf` calls: `%.*s` stops at a zero. -/
def Place.print (p : Place) : Option (List UInt8) :=
  if p.initBuf < 0 then none
  else p.buffers[p.initBuf.toNat]?.map fun b =>
    cString (b.drop p.initBufPos) ++
      ((p.buffers.take p.initBuf.toNat).reverse.map cString).flatten ++ [newline]

/-- What is printed for a file with this content in blocks of this size. -/
def tailBlocks (n : ℕ) (bufSize : ℤ) (content : List UInt8) : Option (List UInt8) :=
  match locate n bufSize content maxBuffersCnt content.length [] 1 with
  | .done place => place.print
  | .exited => none
  | .outOfRange => none

/-- What is printed for a file with this content. -/
def tail (n fBsize : ℕ) (content : List UInt8) : Option (List UInt8) :=
  tailBlocks n (bufferSize fBsize) content

/-- There is a newline at `i`, and not as the last byte of the file. -/
def LineEnd (content : List UInt8) (i : ℕ) : Prop :=
  content[i]? = some newline ∧ i + 1 < content.length

instance (content : List UInt8) : DecidablePred (LineEnd content) :=
  fun _ => inferInstanceAs (Decidable (_ ∧ _))

/-- The places of these newlines. -/
def lineEnds (content : List UInt8) : List ℕ := (List.range content.length).filter (LineEnd content)

/-- The last `n` lines: what comes after the `n`-th of these newlines from the end, or
everything if there are fewer. -/
def lastLines (n : ℕ) (content : List UInt8) : List UInt8 :=
  match (lineEnds content).reverse[n - 1]? with
  | some i => content.drop (i + 1)
  | none => content

section LineEnds

variable {content : List UInt8}

theorem length_filter_range (m : ℕ) :
    ((List.range m).filter (LineEnd content)).length = Nat.count (LineEnd content) m := by
  induction m with
  | zero => rfl
  | succ m ih =>
      rw [List.range_succ, List.filter_append, List.length_append, ih, Nat.count_succ]
      by_cases h : LineEnd content m <;> simp [h]

/-- The newline at `i` is listed behind those before it. -/
theorem filter_range_getElem? {i m : ℕ} (hi : LineEnd content i) (him : i < m) :
    ((List.range m).filter (LineEnd content))[Nat.count (LineEnd content) i]? = some i := by
  induction m with
  | zero => omega
  | succ m ih =>
      rw [List.range_succ, List.filter_append]
      rcases Nat.lt_succ_iff_lt_or_eq.mp him with hlt | rfl
      · have hget := ih hlt
        have hbound := (List.getElem?_eq_some_iff.mp hget).1
        rw [List.getElem?_append_left hbound, hget]
      · rw [List.getElem?_append_right (by rw [length_filter_range]), length_filter_range]
        simp [hi]

/-- `k` is where the last `n` lines start. -/
def IsStart (n : ℕ) (content : List UInt8) (k : ℕ) : Prop :=
  (k = 0 ∧ Nat.count (LineEnd content) content.length < n) ∨
    ∃ i, k = i + 1 ∧ LineEnd content i ∧
      Nat.count (LineEnd content) content.length = n + Nat.count (LineEnd content) i

theorem lastLines_eq {n k : ℕ} (hn : 1 ≤ n) (h : IsStart n content k) :
    lastLines n content = content.drop k := by
  have hlen : (lineEnds content).length = Nat.count (LineEnd content) content.length :=
    length_filter_range content.length
  rcases h with ⟨rfl, hfew⟩ | ⟨i, rfl, hi, hcount⟩
  · have hnone : (lineEnds content).reverse[n - 1]? = none := by
      rw [List.getElem?_eq_none_iff, List.length_reverse, hlen]
      omega
    rw [lastLines, hnone, List.drop_zero]
  · have hget := filter_range_getElem? hi (Nat.lt_of_succ_lt hi.2)
    have hsome : (lineEnds content).reverse[n - 1]? = some i := by
      rw [List.getElem?_reverse (by omega), hlen, ← hget, lineEnds]
      congr 1
      omega
    rw [lastLines, hsome]

/-- What is printed starts at `k`: with the last `n` lines, or for an `n` of zero, which no
count of lines is equal to, with the file. -/
def PrintsFrom (n : ℕ) (content : List UInt8) (k : ℕ) : Prop :=
  (n = 0 ∧ k = 0) ∨ IsStart n content k

theorem PrintsFrom.lineEnd {n k j : ℕ} (h : PrintsFrom n content k) (hj : k = j + 1) :
    LineEnd content j := by
  rcases h with ⟨-, hzero⟩ | ⟨hzero, -⟩ | ⟨i, hi, hend, -⟩
  · omega
  · omega
  · obtain rfl : i = j := by omega
    exact hend

/-- A newline at or behind the start is the one before it if the lines counted up to
there are `n`. -/
theorem PrintsFrom.matches {n k j linesCount : ℕ} (h : PrintsFrom n content k)
    (hj : LineEnd content j) (hkj : k ≤ j + 1) (hcount : linesCount +
      Nat.count (LineEnd content) j = Nat.count (LineEnd content) content.length) :
    linesCount = n ↔ k = j + 1 := by
  have hlater : Nat.count (LineEnd content) (j + 1) ≤ Nat.count (LineEnd content) content.length :=
    Nat.count_monotone _ hj.2.le
  rw [Nat.count_succ, if_pos hj] at hlater
  rcases h with ⟨rfl, rfl⟩ | ⟨rfl, hfew⟩ | ⟨i, rfl, hi, hstart⟩
  · omega
  · omega
  · by_cases hij : i = j
    · subst hij
      omega
    · have hbefore : Nat.count (LineEnd content) (i + 1) ≤ Nat.count (LineEnd content) j :=
        Nat.count_monotone _ (by omega)
      rw [Nat.count_succ, if_pos hi] at hbefore
      omega

theorem PrintsFrom.le_length {n k : ℕ} (h : PrintsFrom n content k) : k ≤ content.length := by
  rcases Nat.eq_zero_or_eq_succ_pred k with hzero | hsucc
  · omega
  · have hend := (h.lineEnd hsucc).2
    omega

theorem PrintsFrom.lastLines_eq {n k : ℕ} (h : PrintsFrom n content k) (hn : 1 ≤ n) :
    lastLines n content = content.drop k := by
  rcases h with ⟨hzero, -⟩ | hstart
  · omega
  · exact Tail.lastLines_eq hn hstart

theorem exists_lineEnd_of_lt_count {c m : ℕ} (h : c < Nat.count (LineEnd content) m) :
    ∃ i, LineEnd content i ∧ Nat.count (LineEnd content) i = c := by
  induction m with
  | zero => simp at h
  | succ m ih =>
      rw [Nat.count_succ] at h
      by_cases hend : LineEnd content m
      · rw [if_pos hend] at h
        rcases Nat.lt_succ_iff_lt_or_eq.mp h with hlt | heq
        · exact ih hlt
        · exact ⟨m, hend, heq.symm⟩
      · rw [if_neg hend] at h
        exact ih h

theorem exists_printsFrom (n : ℕ) (content : List UInt8) : ∃ k, PrintsFrom n content k := by
  by_cases hn : n = 0
  · exact ⟨0, .inl ⟨hn, rfl⟩⟩
  · by_cases hfew : Nat.count (LineEnd content) content.length < n
    · exact ⟨0, .inr (.inl ⟨rfl, hfew⟩)⟩
    · have hlt : Nat.count (LineEnd content) content.length - n <
          Nat.count (LineEnd content) content.length := by omega
      obtain ⟨i, hi, hcount⟩ := exists_lineEnd_of_lt_count hlt
      exact ⟨i + 1, .inr (.inr ⟨i, rfl, hi, by omega⟩)⟩

end LineEnds

section Scanning

variable {content block : List UInt8} {n bufCount newPos filePos : ℕ}

/-- The loop over a block tests the bytes of the file from the end of the block down. -/
theorem scanBlock_succ (hblock : block = (content.take filePos).drop newPos)
    (hle : filePos ≤ content.length) (hfirst : bufCount = 0 ↔ filePos = content.length) {i : ℕ}
    (hi : i < block.length) (linesCount : ℕ) :
    scanBlock n bufCount block (i + 1) linesCount =
      if LineEnd content (newPos + i) then
        if linesCount = n then .done i else scanBlock n bufCount block i (linesCount + 1)
      else scanBlock n bufCount block i linesCount := by
  have hlen : block.length = filePos - newPos := by
    rw [hblock, List.length_drop, List.length_take, min_eq_left hle]
  have hbyte : block[i]? = content[newPos + i]? := by
    rw [hblock, List.getElem?_drop, List.getElem?_take_of_lt (by omega)]
  -- the last byte of the first block is the last byte of the file
  have hlast : (bufCount = 0 ∧ i = block.length - 1) ↔ ¬ newPos + i + 1 < content.length := by
    rw [hfirst]
    omega
  simp only [scanBlock, hbyte, hlast]
  by_cases hnl : content[newPos + i]? = some newline
  · by_cases hin : newPos + i + 1 < content.length
    · have hend : LineEnd content (newPos + i) := ⟨hnl, hin⟩
      rw [if_neg (not_not.mpr hnl), if_neg (not_not.mpr hin), if_pos hend]
    · rw [if_neg (not_not.mpr hnl), if_pos hin, if_neg (fun hend => hin hend.2)]
  · rw [if_pos hnl, if_neg (fun hend => hnl hend.1)]

/-- The loop over a block ends at the newline before the place to print from, if that is
a newline of the block, and otherwise counts the newlines of the block. -/
theorem scanBlock_spec (hblock : block = (content.take filePos).drop newPos)
    (hle : filePos ≤ content.length) (hfirst : bufCount = 0 ↔ filePos = content.length) {k : ℕ}
    (hk : PrintsFrom n content k) {i : ℕ} (hi : i ≤ block.length) (hki : k ≤ newPos + i)
    {linesCount : ℕ} (hcount : linesCount + Nat.count (LineEnd content) (newPos + i) =
      1 + Nat.count (LineEnd content) content.length) :
    (newPos < k ∧ scanBlock n bufCount block i linesCount = .done (k - 1 - newPos)) ∨
      (k ≤ newPos ∧ ∃ l, scanBlock n bufCount block i linesCount = .more l ∧
        l + Nat.count (LineEnd content) newPos = 1 + Nat.count (LineEnd content) content.length) := by
  induction i generalizing linesCount with
  | zero => exact .inr ⟨hki, linesCount, rfl, hcount⟩
  | succ i ih =>
      rw [← Nat.add_assoc, Nat.count_succ] at hcount
      rw [scanBlock_succ hblock hle hfirst hi]
      by_cases hend : LineEnd content (newPos + i)
      · rw [if_pos hend] at hcount ⊢
        have hmatch : linesCount = n ↔ k = newPos + i + 1 := hk.matches hend hki (by omega)
        by_cases hn : linesCount = n
        · have hplace := hmatch.mp hn
          exact .inl ⟨by omega, by rw [if_pos hn]; congr 1; omega⟩
        · have hplace := mt hmatch.mpr hn
          rw [if_neg hn]
          exact ih (by omega) (by omega) (by omega)
      · rw [if_neg hend] at hcount ⊢
        have hplace : k ≠ newPos + i + 1 := fun heq => hend (hk.lineEnd heq)
        exact ih (by omega) (by omega) hcount

/-- What `readBuf` returns when the block size is positive. -/
theorem readBuf_eq {bufSize : ℤ} (hsize : 1 ≤ bufSize) :
    readBuf content filePos bufSize =
      some (filePos - bufSize.toNat, (content.take filePos).drop (filePos - bufSize.toNat)) := by
  have hnew : (max 0 ((filePos : ℤ) - bufSize)).toNat = filePos - bufSize.toNat := by omega
  simp only [readBuf, hnew]
  rw [if_pos (by omega)]

/-- The blocks read so far are the file from `filePos` on. -/
structure Loaded (content : List UInt8) (filePos : ℕ) (buffers : List (List UInt8)) : Prop where
  le : filePos ≤ content.length
  text : buffers.reverse.flatten = content.drop filePos
  first : buffers.length = 0 ↔ filePos = content.length

theorem Loaded.text_block {buffers : List (List UInt8)} (h : Loaded content filePos buffers)
    (newPos i : ℕ) (hi : newPos + i ≤ filePos) :
    ((content.take filePos).drop newPos).drop i ++ buffers.reverse.flatten =
      content.drop (newPos + i) := by
  rw [h.text, List.drop_drop]
  conv_rhs => rw [← List.take_append_drop filePos content]
  rw [List.drop_append_of_le_length]
  rw [List.length_take, min_eq_left h.le]
  exact hi

theorem Loaded.append_text {buffers : List (List UInt8)} (h : Loaded content filePos buffers)
    (hblock : block = (content.take filePos).drop newPos) (hle : newPos ≤ filePos) :
    (buffers ++ [block]).reverse.flatten = content.drop newPos := by
  have htext := h.text_block newPos 0 hle
  rw [List.drop_zero, ← hblock] at htext
  simpa using htext

/-- The blocks before the one at `filePos` are full. -/
structure Cut (content : List UInt8) (size filePos : ℕ) (buffers : List (List UInt8)) : Prop
    extends Loaded content filePos buffers where
  full : ∀ b ∈ buffers, b.length = size
  opened : filePos = 0 → buffers = []

theorem Cut.next {size : ℕ} {buffers : List (List UInt8)} (h : Cut content size filePos buffers)
    (hblock : block = (content.take filePos).drop newPos) (hlen : block.length = size)
    (hlt : newPos < filePos) (hpos : newPos ≠ 0) : Cut content size newPos (buffers ++ [block]) := by
  have hle := h.le
  refine ⟨⟨by omega, h.append_text hblock hlt.le, by simp; omega⟩, ?_, fun hzero => absurd hzero hpos⟩
  intro b hb
  rcases List.mem_append.mp hb with hold | hnew
  · exact h.full b hold
  · exact List.mem_singleton.mp hnew ▸ hlen

/-- The text from the place on. -/
def Place.text (p : Place) : List UInt8 :=
  (p.buffers[p.initBuf.toNat]?.getD []).drop p.initBufPos ++
    (p.buffers.take p.initBuf.toNat).reverse.flatten

/-- The place is in the block `b`, in front of the full blocks `rest`. -/
structure Place.At (place : Place) (size : ℕ) (rest : List (List UInt8)) (b : List UInt8) :
    Prop where
  buffers : ∃ more, place.buffers = rest ++ b :: more
  initBuf : place.initBuf = rest.length
  initBufPos : place.initBufPos ≤ b.length
  short : b.length ≤ size
  full : ∀ r ∈ rest, r.length = size
  opened : b.drop place.initBufPos = [] → rest = []

theorem Place.At.text_eq {place : Place} {size : ℕ} {rest : List (List UInt8)} {b : List UInt8}
    (h : place.At size rest b) :
    place.text = b.drop place.initBufPos ++ rest.reverse.flatten := by
  obtain ⟨more, hbuffers⟩ := h.buffers
  simp [Place.text, hbuffers, h.initBuf]

theorem Place.At.print_full {place : Place} {size : ℕ} {rest : List (List UInt8)} {b : List UInt8}
    (h : place.At size rest b) :
    place.print = some (cString (b.drop place.initBufPos) ++
      (rest.reverse.map cString).flatten ++ [newline]) := by
  obtain ⟨more, hbuffers⟩ := h.buffers
  simp [Place.print, hbuffers, h.initBuf]

/-- The place behind a newline of the block, also when that is the start of the block
behind it. -/
theorem Cut.at_done {size : ℕ} (hsize : 0 < size) {buffers : List (List UInt8)}
    (h : Cut content size filePos buffers) (hblock : block = (content.take filePos).drop newPos)
    (hlen : block.length ≤ size) {j : ℕ} (hj : j < block.length)
    (hend : newPos + j + 1 < content.length) :
    ∃ place, (if j + 1 = block.length then
          Located.done ⟨buffers ++ [block], buffers.length - 1, 0⟩
        else .done ⟨buffers ++ [block], buffers.length, j + 1⟩) = .done place ∧
      (∃ rest b, place.At size rest b) ∧ place.text = content.drop (newPos + j + 1) := by
  have hblen : block.length = filePos - newPos := by
    rw [hblock, List.length_drop, List.length_take, min_eq_left h.le]
  split_ifs with hlast
  · -- the newline is the last byte of its block but not of the file
    have hne : buffers ≠ [] := by
      rintro rfl
      have hall := h.first.mp rfl
      omega
    obtain ⟨rest, b, rfl⟩ := (List.eq_nil_or_concat' buffers).resolve_left hne
    have hb := h.full b (by simp)
    have hat : Place.At ⟨rest ++ [b] ++ [block], (rest ++ [b]).length - 1, 0⟩ size rest b := by
      refine ⟨⟨[block], by simp⟩, by simp, Nat.zero_le _, hb.le, ?_, ?_⟩
      · exact fun r hr => h.full r (by simp [hr])
      · intro hnil
        rw [List.drop_zero] at hnil
        rw [hnil, List.length_nil] at hb
        omega
    have htext := h.text
    rw [show filePos = newPos + j + 1 by omega] at htext
    refine ⟨_, rfl, ⟨rest, b, hat⟩, ?_⟩
    rw [hat.text_eq]
    simpa using htext
  · have hat : Place.At ⟨buffers ++ [block], buffers.length, j + 1⟩ size buffers block := by
      refine ⟨⟨[], rfl⟩, rfl, hj, hlen, h.full, ?_⟩
      intro hnil
      have hshort := List.drop_eq_nil_iff.mp hnil
      dsimp only at hshort
      omega
    refine ⟨_, rfl, ⟨buffers, block, hat⟩, ?_⟩
    rw [hat.text_eq, hblock, h.text_block newPos (j + 1) (by omega), Nat.add_assoc]

theorem Cut.at_start {size : ℕ} {buffers : List (List UInt8)} (h : Cut content size filePos buffers)
    (hblock : block = content.take filePos) (hlen : block.length ≤ size) :
    (∃ rest b, Place.At ⟨buffers ++ [block], buffers.length, 0⟩ size rest b) ∧
      Place.text ⟨buffers ++ [block], buffers.length, 0⟩ = content := by
  have hat : Place.At ⟨buffers ++ [block], buffers.length, 0⟩ size buffers block := by
    refine ⟨⟨[], rfl⟩, rfl, Nat.zero_le _, hlen, h.full, ?_⟩
    intro hnil
    apply h.opened
    have hzero := congrArg List.length hnil
    have hle := h.le
    simp only [hblock, List.drop_zero, List.length_take, List.length_nil] at hzero
    omega
  refine ⟨⟨buffers, block, hat⟩, ?_⟩
  rw [hat.text_eq, List.drop_zero, h.text, hblock, List.take_append_drop]

/-- The loop over the blocks gets to the place to print from, or to the start of the file,
if that is in the blocks there is room for, and else out of the array. -/
theorem locate_spec {bufSize : ℤ} (hsize : 1 ≤ bufSize) {k : ℕ} (hk : PrintsFrom n content k)
    (slots : ℕ) {buffers : List (List UInt8)} {linesCount : ℕ}
    (hcut : Cut content bufSize.toNat filePos buffers) (hleft : slots ≠ 0 ∨ filePos ≠ 0)
    (hkpos : k ≤ filePos) (hcount : linesCount + Nat.count (LineEnd content) filePos =
      1 + Nat.count (LineEnd content) content.length) :
    (slots * bufSize.toNat + k ≤ filePos ∧ slots * bufSize.toNat < filePos ∧
        locate n bufSize content slots filePos buffers linesCount = .outOfRange) ∨
      ((filePos ≤ slots * bufSize.toNat ∨ filePos < slots * bufSize.toNat + k) ∧
        ∃ place, locate n bufSize content slots filePos buffers linesCount = .done place ∧
          (∃ rest b, place.At bufSize.toNat rest b) ∧ place.text = content.drop k) := by
  induction slots generalizing filePos buffers linesCount with
  | zero => exact .inl ⟨by omega, by omega, rfl⟩
  | succ slots ih =>
      obtain ⟨newPos, hnew⟩ : ∃ newPos, newPos = filePos - bufSize.toNat := ⟨_, rfl⟩
      obtain ⟨block, hblock⟩ : ∃ block, block = (content.take filePos).drop newPos := ⟨_, rfl⟩
      have hread : readBuf content filePos bufSize = some (newPos, block) := by
        rw [readBuf_eq hsize, hblock, hnew]
      have hlen : newPos + block.length = filePos := by
        rw [hblock, List.length_drop, List.length_take, min_eq_left hcut.le]
        omega
      rw [Nat.succ_mul, locate, hread]
      rcases scanBlock_spec hblock hcut.le hcut.first hk le_rfl (by omega) (by rwa [hlen]) with
        ⟨hin, hrun⟩ | ⟨hbefore, l, hrun, hl⟩
      · have hend := (hk.lineEnd (show k = (k - 1) + 1 by omega)).2
        obtain ⟨place, hplace, hat, htext⟩ := hcut.at_done (by omega) hblock (by omega)
          (show k - 1 - newPos < block.length by omega) (by omega)
        rw [show newPos + (k - 1 - newPos) + 1 = k by omega] at htext
        simp only [hrun]
        exact .inr ⟨by omega, place, hplace, hat, htext⟩
      · simp only [hrun]
        by_cases hzero : newPos = 0
        · subst hzero
          obtain ⟨hat, htext⟩ := hcut.at_start hblock (by omega)
          refine .inr ⟨by omega, _, if_pos rfl, hat, ?_⟩
          rw [htext, show k = 0 by omega, List.drop_zero]
        · rw [if_neg hzero]
          have hcut' := hcut.next hblock (by omega) (by omega) hzero
          rcases ih hcut' (.inr hzero) hbefore hl with ⟨hfar, hmore, hout⟩ | ⟨hroom, hdone⟩
          · exact .inl ⟨by omega, by omega, hout⟩
          · exact .inr ⟨by omega, hdone⟩

end Scanning

/-- A text cut from its end into blocks of this size, the first of them what is left. -/
def blocks (size : ℕ) (text : List UInt8) : List (List UInt8) :=
  if _ : text.length ≤ size ∨ size = 0 then [text]
  else blocks size (text.take (text.length - size)) ++ [text.drop (text.length - size)]
termination_by text.length
decreasing_by simp; omega

section Blocks

variable {size : ℕ}

theorem blocks_short {text : List UInt8} (h : text.length ≤ size) : blocks size text = [text] := by
  rw [blocks, dif_pos (.inl h)]

theorem blocks_append (hsize : 0 < size) {u v : List UInt8} (hu : u ≠ []) (hv : v.length = size) :
    blocks size (u ++ v) = blocks size u ++ [v] := by
  have hpos := List.length_pos_of_ne_nil hu
  have hlen : (u ++ v).length - size = u.length := by simp [hv]
  rw [blocks, dif_neg (by simp; omega), hlen, List.take_left, List.drop_left]

theorem blocks_append_full (hsize : 0 < size) {u : List UInt8} (hu : u.length ≤ size)
    {rest : List (List UInt8)} (hopen : u = [] → rest = []) (hfull : ∀ r ∈ rest, r.length = size) :
    blocks size (u ++ rest.reverse.flatten) = u :: rest.reverse := by
  induction rest with
  | nil => simpa using blocks_short hu
  | cons r rest ih =>
      have hne : u ++ rest.reverse.flatten ≠ [] := fun hnil =>
        List.cons_ne_nil _ _ (hopen (List.append_eq_nil_iff.mp hnil).1)
      rw [List.reverse_cons, List.flatten_append, List.flatten_singleton, ← List.append_assoc,
        blocks_append hsize hne (hfull r (by simp)),
        ih (fun hnil => absurd (hopen hnil) (List.cons_ne_nil _ _))
          (fun q hq => hfull q (by simp [hq]))]
      rfl

theorem flatten_blocks (text : List UInt8) : (blocks size text).flatten = text := by
  fun_induction blocks size text with
  | case1 text h => simp
  | case2 text h ih => rw [List.flatten_append, ih, List.flatten_singleton, List.take_append_drop]

end Blocks

/-- Each block of the text is printed up to its first zero. -/
theorem Place.At.print_eq {place : Place} {size : ℕ} (hsize : 0 < size) {rest : List (List UInt8)}
    {b : List UInt8} (h : place.At size rest b) :
    place.print = some ((blocks size place.text).flatMap cString ++ [newline]) := by
  have hlen : (b.drop place.initBufPos).length ≤ size := by
    have hshort := h.short
    rw [List.length_drop]
    omega
  rw [h.print_full, h.text_eq, blocks_append_full hsize hlen h.opened h.full, List.flatMap_cons, List.flatMap]

theorem cut_empty (content : List UInt8) (size : ℕ) : Cut content size content.length [] :=
  ⟨⟨le_rfl, by simp, by simp⟩, by simp, by simp⟩

/-- What is printed of a file that spans no more blocks than the array holds. -/
theorem tailBlocks_eq {content : List UInt8} {n k : ℕ} {bufSize : ℤ} (hk : PrintsFrom n content k)
    (hsize : 1 ≤ bufSize) (hspan : content.length ≤ maxBuffersCnt * bufSize) :
    tailBlocks n bufSize content =
      some ((blocks bufSize.toNat (content.drop k)).flatMap cString ++ [newline]) := by
  have hspan' : content.length ≤ maxBuffersCnt * bufSize.toNat := by
    simp only [maxBuffersCnt] at hspan ⊢
    omega
  rcases locate_spec hsize hk maxBuffersCnt (cut_empty _ _) (.inl (by decide)) hk.le_length rfl with
    ⟨-, hout, -⟩ | ⟨-, place, hrun, ⟨rest, b, hat⟩, htext⟩
  · omega
  · rw [tailBlocks, hrun]
    dsimp only
    rw [hat.print_eq (by omega), htext]

theorem flatMap_cString_of_no_zero {bs : List (List UInt8)} (h : 0 ∉ bs.flatten) :
    bs.flatMap cString = bs.flatten := by
  have hid : bs.map cString = bs := by
    refine (List.map_congr_left fun b hb => ?_).trans (List.map_id _)
    exact cString_eq_self fun hzero => h (List.mem_flatten.mpr ⟨b, hb, hzero⟩)
  rw [List.flatMap, hid]

theorem tail_eq_of_no_zero {content : List UInt8} {n fBsize k : ℕ} (hzero : 0 ∉ content)
    (hk : PrintsFrom n content k) (hsize : 1 ≤ bufferSize fBsize)
    (hspan : content.length ≤ maxBuffersCnt * bufferSize fBsize) :
    tail n fBsize content = some (content.drop k ++ [newline]) := by
  rw [tail, tailBlocks_eq hk hsize hspan, flatMap_cString_of_no_zero, flatten_blocks]
  rw [flatten_blocks]
  exact fun hmem => hzero (List.mem_of_mem_drop hmem)

/-- For every file without zeros, every `n` and every block size of which the file spans
no more than the array holds, the last `n` lines are printed, and one newline. -/
theorem tail_prints_lastLines (content : List UInt8) (n fBsize : ℕ) (hzero : 0 ∉ content)
    (hn : 1 ≤ n) (hsize : 1 ≤ bufferSize fBsize)
    (hspan : content.length ≤ maxBuffersCnt * bufferSize fBsize) :
    tail n fBsize content = some (lastLines n content ++ [newline]) := by
  obtain ⟨k, hk⟩ := exists_printsFrom n content
  rw [tail_eq_of_no_zero hzero hk hsize hspan, hk.lastLines_eq hn]

/-- In blocks of two bytes, the newline before the last line is the last byte of its block. -/
theorem tail_prints_lastLines_boundary :
    tail 1 2 [97, 10, 98, 10, 99, 10] = some [99, 10, 10] :=
  tail_prints_lastLines [97, 10, 98, 10, 99, 10] 1 2 (by decide) (by decide) (by decide) (by decide)

end TlpiExercises.Tail
