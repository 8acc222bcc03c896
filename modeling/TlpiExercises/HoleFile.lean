import TlpiExercises.GetNum
import TlpiExercises.SparseFile

/-!
# A file of text and gaps with `holeFile`

The program writes a text of 10 bytes and moves the file offset by the size of a gap, as often
as there are gaps. Moving the offset does not make a file longer, so the gap after the last
text is not part of the file. Every `write` transfers the whole text, and `open` and `close`
succeed.
-/
namespace TlpiExercises.HoleFile
open Exits SparseFile GetNum

/-- `"olar tiago"`. -/
def text : List UInt8 := [111, 108, 97, 114, 32, 116, 105, 97, 103, 111]

/-- The ways the program does not finish. -/
inductive Stop where
  | argument (message : GnFail)
  | lseek
  deriving DecidableEq, Repr

/-- `lseek(fd, distance, SEEK_CUR)`, which fails where an `off_t` does not hold the offset. -/
def lseekCur (fd : OpenFile UInt8) (distance : ℤ) : Except Stop (OpenFile UInt8) := do
  require (0 ≤ fd.offset + distance ∧ fd.offset + distance < 2 ^ 63) .lseek
  return { fd with offset := (fd.offset + distance).toNat }

/-- The loop, for the number of iterations that are left. -/
def gapLoop (gapSize : Int32) : ℕ → OpenFile UInt8 → Except Stop (OpenFile UInt8)
  | 0, fd => return fd
  | k + 1, fd => do
      let fd ← lseekCur (fd.write text) gapSize.toInt
      gapLoop gapSize k fd

/-- The file that is created for these arguments. -/
def main (numGapsArg gapSizeArg : List UInt8) : Except Stop (Cells UInt8) := do
  let numGaps ← (getInt gnGt0 numGapsArg).mapError .argument
  let gapSize ← (getInt gnGt0 gapSizeArg).mapError .argument
  let fd ← gapLoop gapSize numGaps.toInt.toNat ⟨[], 0, false⟩
  return fd.cells

/-- The file as its arguments describe it. -/
def gapped (numGaps gapSize : ℕ) : Cells UInt8 :=
  layout (List.replicate numGaps [.data text, .hole gapSize]).flatten

/-- The text, and so many times a gap and the text. -/
def textsAndGaps (gapSize : ℕ) : ℕ → Cells UInt8
  | 0 => text.map some
  | k + 1 => text.map some ++ List.replicate gapSize none ++ textsAndGaps gapSize k

theorem textsAndGaps_eq (gapSize k : ℕ) : ∃ f, textsAndGaps gapSize k = text.map some ++ f := by
  cases k with
  | zero => exact ⟨[], (List.append_nil _).symm⟩
  | succ k => exact ⟨_, List.append_assoc _ _ _⟩

theorem length_textsAndGaps (gapSize k : ℕ) :
    (textsAndGaps gapSize k).length = 10 + k * (10 + gapSize) := by
  induction k with
  | zero => simp [textsAndGaps, text]
  | succ k ih =>
      simp only [textsAndGaps, List.length_append, List.length_map, List.length_replicate, ih]
      rw [Nat.succ_mul]
      simp [text]
      omega

theorem holes_textsAndGaps {gapSize : ℕ} (hgap : gapSize ≠ 0) (k : ℕ) :
    holes (textsAndGaps gapSize k) = k := by
  have htext : text ≠ [] := by decide
  induction k with
  | zero => rfl
  | succ k ih =>
      obtain ⟨f, hf⟩ := textsAndGaps_eq gapSize k
      rw [textsAndGaps, hf, holes_data_hole htext hgap htext, ← hf, ih, Nat.add_comm]

/-- Only the gap at the end is missing. -/
theorem textsAndGaps_append (gapSize k : ℕ) :
    textsAndGaps gapSize k ++ List.replicate gapSize none = gapped (k + 1) gapSize := by
  induction k with
  | zero => simp [textsAndGaps, gapped, layout, Extent.cells]
  | succ k ih =>
      have hstep : gapped (k + 1 + 1) gapSize =
          text.map some ++ List.replicate gapSize none ++ gapped (k + 1) gapSize := by
        simp [gapped, layout, Extent.cells, List.replicate_succ]
      rw [hstep, ← ih, textsAndGaps, List.append_assoc]

section Loop

variable {gapSize : Int32}

/-- One iteration at or behind the end: the hole up to the offset and the text are added, and
the offset is a gap behind them. -/
theorem write_lseekCur {f : Cells UInt8} {o : ℕ} (hle : f.length ≤ o) (hgap : 0 ≤ gapSize.toInt)
    (hmax : o + (10 + gapSize.toInt.toNat) < 2 ^ 63) :
    lseekCur (OpenFile.write ⟨f, o, false⟩ text) gapSize.toInt =
      .ok ⟨f ++ List.replicate (o - f.length) none ++ text.map some, o + (10 + gapSize.toInt.toNat),
        false⟩ := by
  have hwrite : OpenFile.write ⟨f, o, false⟩ text =
      ⟨f ++ List.replicate (o - f.length) none ++ text.map some, o + 10, false⟩ := by
    rw [← writeAt_of_le hle (by decide)]
    rfl
  have hoffset : ((o + 10 : ℕ) + gapSize.toInt).toNat = o + (10 + gapSize.toInt.toNat) := by
    omega
  have hrange : 0 ≤ ((o + 10 : ℕ) : ℤ) + gapSize.toInt ∧
      ((o + 10 : ℕ) : ℤ) + gapSize.toInt < 2 ^ 63 := by
    omega
  rw [hwrite, lseekCur]
  simp only [bind_eq_ok_iff, require_eq_ok_iff, pure_eq_ok_iff, exists_const, decide_eq_true_eq]
  exact ⟨hrange, by rw [hoffset]⟩

/-- The loop from a file with the offset at or behind its end. -/
theorem gapLoop_eq (hgap : 0 ≤ gapSize.toInt) (k : ℕ) {f : Cells UInt8} {o : ℕ}
    (hle : f.length ≤ o) (hmax : o + (k + 1) * (10 + gapSize.toInt.toNat) < 2 ^ 63) :
    ∃ fd, gapLoop gapSize (k + 1) ⟨f, o, false⟩ = .ok fd ∧
      fd.cells = f ++ List.replicate (o - f.length) none ++ textsAndGaps gapSize.toInt.toNat k := by
  induction k generalizing f o with
  | zero =>
      rw [gapLoop, write_lseekCur hle hgap (by omega)]
      exact ⟨_, rfl, rfl⟩
  | succ k ih =>
      rw [Nat.succ_mul] at hmax
      rw [gapLoop, write_lseekCur hle hgap (by omega)]
      have hlen : (f ++ List.replicate (o - f.length) none ++ text.map some).length = o + 10 := by
        simp [text]
        omega
      have hle' : (f ++ List.replicate (o - f.length) none ++ text.map some).length ≤
          o + (10 + gapSize.toInt.toNat) := by
        omega
      obtain ⟨fd, hrun, hcells⟩ := ih hle' (by omega)
      refine ⟨fd, hrun, ?_⟩
      have hrest : o + (10 + gapSize.toInt.toNat) - (o + 10) = gapSize.toInt.toNat := by omega
      rw [hcells, hlen, hrest, textsAndGaps]
      simp only [List.append_assoc]

end Loop

/-- For no arguments is the file the one they describe: its last hole is missing. -/
theorem main_not_gapped (numGapsArg gapSizeArg : List UInt8) (numGaps gapSize : Int32)
    (hnumGaps : getInt gnGt0 numGapsArg = .ok numGaps)
    (hgapSize : getInt gnGt0 gapSizeArg = .ok gapSize) :
    ∃ f, main numGapsArg gapSizeArg = .ok f ∧
      f ++ List.replicate gapSize.toInt.toNat none =
        gapped numGaps.toInt.toNat gapSize.toInt.toNat ∧
      f ≠ gapped numGaps.toInt.toNat gapSize.toInt.toNat ∧
      holes f + 1 = numGaps.toInt ∧ f.length + gapSize.toInt = numGaps.toInt * (10 + gapSize.toInt) := by
  have hgaps := (getInt_eq_ok_iff.mp hnumGaps).2.2 rfl
  have hsize := (getInt_eq_ok_iff.mp hgapSize).2.2 rfl
  have hgapsMax := numGaps.toInt_lt
  have hsizeMax := gapSize.toInt_lt
  obtain ⟨k, hk⟩ : ∃ k : ℕ, numGaps.toInt.toNat = k + 1 := ⟨numGaps.toInt.toNat - 1, by omega⟩
  have hmax : (k + 1) * (10 + gapSize.toInt.toNat) < 2 ^ 63 := by
    calc (k + 1) * (10 + gapSize.toInt.toNat)
        ≤ 2 ^ 31 * (10 + 2 ^ 31) := Nat.mul_le_mul (by omega) (by omega)
      _ < 2 ^ 63 := by decide
  have hstart : ([] : Cells UInt8).length ≤ 0 := le_rfl
  obtain ⟨fd, hrun, hcells⟩ := gapLoop_eq hsize.le k hstart (by rwa [Nat.zero_add])
  have hfile : fd.cells = textsAndGaps gapSize.toInt.toNat k := hcells
  have happend := textsAndGaps_append gapSize.toInt.toNat k
  refine ⟨fd.cells, ?_, ?_, ?_, ?_, ?_⟩
  · rw [main, hnumGaps, hgapSize]
    show (gapLoop gapSize numGaps.toInt.toNat ⟨[], 0, false⟩ >>= fun fd => pure fd.cells) = _
    rw [hk, hrun]
    rfl
  · rw [hfile, hk, happend]
  · rw [hfile, hk, ← happend]
    intro heq
    have hlen := congrArg List.length heq
    rw [List.length_append, List.length_replicate] at hlen
    omega
  · rw [hfile, holes_textsAndGaps (by omega)]
    omega
  · have hlen := length_textsAndGaps gapSize.toInt.toNat k
    have hnum : numGaps.toInt = k + 1 := by omega
    rw [hfile, hlen, hnum]
    push_cast
    rw [Int.toNat_of_nonneg hsize.le]
    ring

/-- Two gaps of three bytes. -/
theorem main_not_gapped_two :
    ∃ f, main [50] [51] = .ok f ∧ f ++ List.replicate 3 none = gapped 2 3 ∧ f ≠ gapped 2 3 ∧
      holes f + 1 = (2 : ℤ) ∧ f.length + (3 : ℤ) = 2 * (10 + 3) :=
  main_not_gapped [50] [51] 2 3 (by decide +kernel) (by decide +kernel)

/-- With one gap of one byte the file is the text, without a hole. -/
theorem one_gap_missing :
    main [49] [49] = .ok (text.map some) ∧ holes (text.map some) = 0 ∧
      (text.map some).length ≠ 1 * (10 + 1) := by
  decide +kernel

end TlpiExercises.HoleFile
