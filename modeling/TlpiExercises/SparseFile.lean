import Mathlib.Data.List.Basic
import Mathlib.Tactic

/-!
# Files with holes

A file is the list of its cells. A cell that was never written holds nothing and reads as
zero, so the content of a file and the offsets that were written are both read off it. An
open file writes at its offset, or at the end of the file if it was opened for appending;
a write behind the end leaves a hole in between, and moving the offset alone changes nothing.
-/
namespace TlpiExercises.SparseFile

/-- The cells of a file, `none` at the offsets that were never written. -/
abbrev Cells (α : Type*) := List (Option α)

variable {α : Type*}

def content [Zero α] (f : Cells α) : List α := f.map fun c => c.getD 0

def Written (f : Cells α) (i : ℕ) : Prop := ∃ b, f[i]? = some (some b)

def InHole (f : Cells α) (i : ℕ) : Prop := f[i]? = some none

/-- The number of holes that start in this part of a file, which may start inside a hole. -/
def holesFrom : Bool → Cells α → ℕ
  | _, [] => 0
  | _, some _ :: f => holesFrom false f
  | inHole, none :: f => (if inHole then 0 else 1) + holesFrom true f

def holes (f : Cells α) : ℕ := holesFrom false f

/-- The parts a file is made of. -/
inductive Extent (α : Type*) where
  | data (bytes : List α)
  | hole (size : ℕ)

def Extent.cells : Extent α → Cells α
  | .data bytes => bytes.map some
  | .hole size => List.replicate size none

/-- The file made of these parts. -/
def layout (extents : List (Extent α)) : Cells α := extents.flatMap Extent.cells

/-- An open file. -/
structure OpenFile (α : Type*) where
  cells : Cells α
  offset : ℕ
  append : Bool

/-- The cells after `bytes` were written at offset `o`. -/
def writeAt (f : Cells α) (o : ℕ) (bytes : List α) : Cells α :=
  if bytes = [] then f
  else
    let padded := f ++ List.replicate (o - f.length) none
    padded.take o ++ bytes.map some ++ padded.drop (o + bytes.length)

/-- A call of `write` that transfers these bytes. -/
def OpenFile.write (fd : OpenFile α) (bytes : List α) : OpenFile α :=
  let o := if fd.append then fd.cells.length else fd.offset
  { fd with cells := writeAt fd.cells o bytes, offset := o + bytes.length }

section Content

variable [Zero α] (f g : Cells α)

@[simp] theorem content_append : content (f ++ g) = content f ++ content g := by
  simp [content]

@[simp] theorem length_content : (content f).length = f.length := by
  simp [content]

@[simp] theorem content_map_some (bytes : List α) : content (bytes.map some) = bytes := by
  simp [content, Function.comp_def]

end Content

section Writing

variable {f : Cells α} {bytes : List α}

/-- A write at or behind the end leaves a hole up to its offset. -/
theorem writeAt_of_le {o : ℕ} (h : f.length ≤ o) (hbytes : bytes ≠ []) :
    writeAt f o bytes = f ++ List.replicate (o - f.length) none ++ bytes.map some := by
  have hlen : (f ++ List.replicate (o - f.length) none).length = o := by
    simp
    omega
  have htake : (f ++ List.replicate (o - f.length) none).take o =
      f ++ List.replicate (o - f.length) none := List.take_of_length_le hlen.le
  have hdrop : (f ++ List.replicate (o - f.length) none).drop (o + bytes.length) = [] :=
    List.drop_of_length_le (by omega)
  unfold writeAt
  rw [if_neg hbytes]
  simp only [htake, hdrop, List.append_nil]

theorem writeAt_length : writeAt f f.length bytes = f ++ bytes.map some := by
  by_cases h : bytes = []
  · simp [writeAt, h]
  · simp [writeAt_of_le le_rfl h]

/-- The file is written at its end, whether it was opened for appending or not. -/
def OpenFile.AtEnd (fd : OpenFile α) : Prop := fd.append = false → fd.offset = fd.cells.length

theorem OpenFile.AtEnd.write_cells {fd : OpenFile α} (h : fd.AtEnd) (bytes : List α) :
    (fd.write bytes).cells = fd.cells ++ bytes.map some := by
  have hoffset : (if fd.append then fd.cells.length else fd.offset) = fd.cells.length := by
    cases happend : fd.append with
    | true => rfl
    | false => exact h happend
  show writeAt fd.cells (if fd.append then fd.cells.length else fd.offset) bytes = _
  rw [hoffset, writeAt_length]

theorem OpenFile.AtEnd.write {fd : OpenFile α} (h : fd.AtEnd) (bytes : List α) :
    (fd.write bytes).AtEnd := by
  intro happend
  have hfd : fd.append = false := happend
  rw [h.write_cells, List.length_append, List.length_map, ← h hfd]
  show (if fd.append then fd.cells.length else fd.offset) + bytes.length = _
  rw [hfd]
  rfl

end Writing

section Holes

theorem written_map_some {bytes : List α} {i : ℕ} (h : i < bytes.length) :
    Written (bytes.map some) i :=
  ⟨bytes[i], by simp [h]⟩

/-- A file of extents has a hole exactly if one of its hole extents is not empty. -/
theorem exists_inHole_iff (extents : List (Extent α)) :
    (∃ i, InHole (layout extents) i) ↔ ∃ n, Extent.hole n ∈ extents ∧ n ≠ 0 := by
  have hmem : (∃ i, InHole (layout extents) i) ↔ none ∈ layout extents :=
    List.mem_iff_getElem?.symm
  rw [hmem, layout, List.mem_flatMap]
  constructor
  · rintro ⟨e, he, hnone⟩
    cases e with
    | data bytes => simp [Extent.cells] at hnone
    | hole n => exact ⟨n, he, (List.mem_replicate.mp hnone).1⟩
  · rintro ⟨n, hn, hpos⟩
    exact ⟨.hole n, hn, List.mem_replicate.mpr ⟨hpos, rfl⟩⟩

@[simp] theorem holesFrom_some_append (inHole : Bool) (bytes : List α) (f : Cells α)
    (h : bytes ≠ []) : holesFrom inHole (bytes.map some ++ f) = holesFrom false f := by
  induction bytes generalizing inHole with
  | nil => contradiction
  | cons b bytes ih =>
      by_cases hnil : bytes = []
      · subst hnil
        rfl
      · exact ih false hnil

theorem holesFrom_none_append (n : ℕ) (f : Cells α) :
    holesFrom true (List.replicate n none ++ f) = holesFrom true f := by
  induction n with
  | zero => rfl
  | succ n ih =>
      rw [List.replicate_succ, List.cons_append, holesFrom, ih]
      simp

/-- Data, a hole of at least one cell and the rest. -/
theorem holes_data_hole {bytes : List α} (h : bytes ≠ []) {n : ℕ} (hn : n ≠ 0) {rest : List α}
    (hrest : rest ≠ []) (f : Cells α) :
    holes (bytes.map some ++ List.replicate n none ++ (rest.map some ++ f)) =
      1 + holes (rest.map some ++ f) := by
  obtain ⟨m, rfl⟩ := Nat.exists_eq_succ_of_ne_zero hn
  unfold holes
  rw [List.append_assoc, holesFrom_some_append _ _ _ h, List.replicate_succ, List.cons_append,
    holesFrom, holesFrom_none_append, holesFrom_some_append _ _ _ hrest,
    holesFrom_some_append _ _ _ hrest]
  rfl

end Holes

end TlpiExercises.SparseFile
