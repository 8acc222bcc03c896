import Mathlib.Data.UInt
import TlpiExercises.Exits
import TlpiExercises.SparseFile

/-!
# Copying with `cpholes` and `tee`

Both programs read up to 10 bytes at a time and pass each chunk to `write` once. What `read`
and `write` do is data: a round is one pass through the loop, with the chunk that was read
and what each `write` returned for it, an error or a number of bytes up to the count. The
source and the target are different files.
-/
namespace TlpiExercises.CopyHoles
open Exits SparseFile

/-- The size of the copy buffer. -/
abbrev bufSize : ℕ := 10

/-- One pass through a loop that writes to the outputs `σ`. -/
structure Round (σ : Type*) where
  buf : List UInt8
  buf_ne : buf ≠ []
  buf_le : buf.length ≤ bufSize
  reply : σ → Option (Fin (buf.length + 1))

/-- The `errExit` that ends the program. -/
inductive Stop where
  | open
  | read
  | write
  | close
  deriving DecidableEq, Repr

section Rounds

variable {σ : Type*}

/-- The bytes that all reads returned. -/
def input (rounds : List (Round σ)) : List UInt8 := rounds.flatMap Round.buf

/-- The bytes of the round that reach the output `s`. -/
def Round.passed (r : Round σ) (s : σ) : List UInt8 := r.buf.take ((r.reply s).elim 0 Fin.val)

/-- `write` took all bytes of the round. -/
def Round.Full (r : Round σ) (s : σ) : Prop := r.reply s = some (Fin.last r.buf.length)

def output (rounds : List (Round σ)) (s : σ) : List UInt8 := rounds.flatMap fun r => r.passed s

theorem Round.length_passed_le (r : Round σ) (s : σ) : (r.passed s).length ≤ r.buf.length := by
  simp [Round.passed]

theorem Round.passed_eq_iff (r : Round σ) (s : σ) : r.passed s = r.buf ↔ r.Full s := by
  have hlen := List.length_pos_of_ne_nil r.buf_ne
  unfold Round.passed Round.Full
  rw [List.take_eq_self_iff]
  cases r.reply s with
  | none => simpa using r.buf_ne
  | some n =>
      rw [Option.elim_some, Option.some.injEq, Fin.ext_iff, Fin.val_last]
      have hn := n.isLt
      omega

@[simp] theorem input_cons (r : Round σ) (rounds : List (Round σ)) :
    input (r :: rounds) = r.buf ++ input rounds := List.flatMap_cons

@[simp] theorem output_nil (s : σ) : output ([] : List (Round σ)) s = [] := rfl

@[simp] theorem output_cons (r : Round σ) (rounds : List (Round σ)) (s : σ) :
    output (r :: rounds) s = r.passed s ++ output rounds s := List.flatMap_cons

theorem length_output_le (rounds : List (Round σ)) (s : σ) :
    (output rounds s).length ≤ (input rounds).length := by
  unfold output input
  rw [List.length_flatMap, List.length_flatMap]
  exact List.sum_le_sum fun r _ => r.length_passed_le s

/-- An output holds all of the input exactly if no write to it was short. -/
theorem output_eq_iff (rounds : List (Round σ)) (s : σ) :
    output rounds s = input rounds ↔ ∀ r ∈ rounds, r.Full s := by
  induction rounds with
  | nil => simp [output, input]
  | cons r rounds ih =>
      rw [List.forall_mem_cons, output_cons, input_cons]
      constructor
      · intro h
        have hlen := congrArg List.length h
        have hround := r.length_passed_le s
        have hrest := length_output_le rounds s
        rw [List.length_append, List.length_append] at hlen
        obtain ⟨hbuf, hinput⟩ := List.append_inj h (by omega)
        exact ⟨(r.passed_eq_iff s).mp hbuf, ih.mp hinput⟩
      · rintro ⟨hfull, hrest⟩
        rw [(r.passed_eq_iff s).mpr hfull, ih.mpr hrest]

end Rounds

section Cpholes

/-- What the calls of one run of `cpholes` return: whether each `open` and `close` succeeds,
the rounds of the loop, and whether the `read` after them meets the end of the file. -/
structure Cp where
  openA : Bool
  openB : Bool
  rounds : List (Round Unit)
  readEnds : Bool
  closeA : Bool
  closeB : Bool

/-- The loop of `cpholes`. -/
def cpLoop : List (Round Unit) → OpenFile UInt8 → Except Stop (OpenFile UInt8)
  | [], fdB => return fdB
  | r :: rounds, fdB => do
      require (r.reply ()).isSome .write
      cpLoop rounds (fdB.write (r.passed ()))

/-- The target after a run that exits successfully. `O_TRUNC` makes it an empty file. -/
def cpholes (c : Cp) : Except Stop (Cells UInt8) := do
  require c.openA .open
  require c.openB .open
  let fdB ← cpLoop c.rounds ⟨[], 0, false⟩
  require c.readEnds .read
  require c.closeA .close
  require c.closeB .close
  return fdB.cells

/-- No call of the run fails. -/
structure Cp.Succeeds (c : Cp) : Prop where
  openA : c.openA
  openB : c.openB
  write : ∀ r ∈ c.rounds, (r.reply ()).isSome
  readEnds : c.readEnds
  closeA : c.closeA
  closeB : c.closeB

theorem cpLoop_eq_ok_iff (rounds : List (Round Unit)) {fdB : OpenFile UInt8} (hend : fdB.AtEnd)
    (f : Cells UInt8) :
    (∃ fd, cpLoop rounds fdB = .ok fd ∧ fd.cells = f) ↔
      (∀ r ∈ rounds, (r.reply ()).isSome) ∧ f = fdB.cells ++ (output rounds ()).map some := by
  induction rounds generalizing fdB with
  | nil =>
      simp only [cpLoop, pure_eq_ok_iff, exists_eq_left', output_nil, List.map_nil, List.append_nil,
        List.not_mem_nil, false_imp_iff, implies_true, true_and]
      exact eq_comm
  | cons r rounds ih =>
      have hnext := ih (hend.write (r.passed ()))
      rw [hend.write_cells, List.append_assoc] at hnext
      simp only [cpLoop, bind_eq_ok_iff, require_eq_ok_iff, exists_and_left, exists_const]
      rw [List.forall_mem_cons, output_cons, List.map_append, and_assoc, ← hnext]
      simp only [and_assoc, exists_and_left]

/-- A run exits successfully exactly if no call fails, and then every cell up to the end of the
target was written. -/
theorem cpholes_eq_ok_iff (c : Cp) (f : Cells UInt8) :
    cpholes c = .ok f ↔ c.Succeeds ∧ f = (output c.rounds ()).map some := by
  have hstart : OpenFile.AtEnd (⟨[], 0, false⟩ : OpenFile UInt8) := fun _ => rfl
  have hloop := cpLoop_eq_ok_iff c.rounds hstart f
  rw [List.nil_append] at hloop
  unfold cpholes
  simp only [bind_eq_ok_iff, require_eq_ok_iff, pure_eq_ok_iff, exists_and_left, exists_const]
  constructor
  · rintro ⟨hopenA, hopenB, fd, hrun, hread, hcloseA, hcloseB, hcells⟩
    obtain ⟨hwrite, hf⟩ := hloop.mp ⟨fd, hrun, hcells⟩
    exact ⟨⟨hopenA, hopenB, hwrite, hread, hcloseA, hcloseB⟩, hf⟩
  · rintro ⟨hc, hf⟩
    obtain ⟨fd, hrun, hcells⟩ := hloop.mpr ⟨hc.write, hf⟩
    exact ⟨hc.openA, hc.openB, fd, hrun, hc.readEnds, hc.closeA, hc.closeB, hcells⟩

end Cpholes

section Tee

/-- The outputs of `tee`. -/
inductive Sink where
  | file
  | stdout
  deriving DecidableEq, Repr

/-- What the calls of one run of `tee` return, for a file with this content before it. -/
structure Tee where
  shouldAppend : Bool
  old : Cells UInt8
  openFd : Bool
  rounds : List (Round Sink)
  readEnds : Bool
  closeFd : Bool

/-- The file as `open` leaves it, with `O_APPEND` or `O_TRUNC`. -/
def Tee.opened (t : Tee) : OpenFile UInt8 :=
  ⟨if t.shouldAppend then t.old else [], 0, t.shouldAppend⟩

/-- The loop of `tee`. The result of `open` is not tested: a `write` to a file that was not
opened fails. -/
def teeLoop (openFd : Bool) : List (Round Sink) → OpenFile UInt8 → List UInt8 →
    Except Stop (OpenFile UInt8 × List UInt8)
  | [], fd, out => return (fd, out)
  | r :: rounds, fd, out => do
      require (openFd && (r.reply .file).isSome) .write
      require (r.reply .stdout).isSome .write
      teeLoop openFd rounds (fd.write (r.passed .file)) (out ++ r.passed .stdout)

/-- The file and the standard output after a run that exits successfully. -/
def tee (t : Tee) : Except Stop (Cells UInt8 × List UInt8) := do
  let (fd, out) ← teeLoop t.openFd t.rounds t.opened []
  require t.readEnds .read
  require (t.openFd && t.closeFd) .close
  return (fd.cells, out)

/-- No call of the run fails. -/
structure Tee.Succeeds (t : Tee) : Prop where
  openFd : t.openFd
  write : ∀ r ∈ t.rounds, (r.reply .file).isSome ∧ (r.reply .stdout).isSome
  readEnds : t.readEnds
  closeFd : t.closeFd

theorem teeLoop_eq_ok_iff (openFd : Bool) (rounds : List (Round Sink)) {fd : OpenFile UInt8}
    (hend : fd.AtEnd) (out : List UInt8) (f : Cells UInt8) (out' : List UInt8) :
    (∃ r, teeLoop openFd rounds fd out = .ok r ∧ (r.1.cells, r.2) = (f, out')) ↔
      (∀ r ∈ rounds, openFd ∧ (r.reply .file).isSome ∧ (r.reply .stdout).isSome) ∧
        f = fd.cells ++ (output rounds .file).map some ∧ out' = out ++ output rounds .stdout := by
  induction rounds generalizing fd out with
  | nil =>
      simp only [teeLoop, pure_eq_ok_iff, exists_eq_left', Prod.mk.injEq, output_nil, List.map_nil,
        List.append_nil, List.not_mem_nil, false_imp_iff, implies_true, true_and]
      exact and_congr eq_comm eq_comm
  | cons r rounds ih =>
      have hnext := ih (hend.write (r.passed .file)) (out ++ r.passed .stdout)
      rw [hend.write_cells, List.append_assoc, List.append_assoc] at hnext
      simp only [teeLoop, bind_eq_ok_iff, require_eq_ok_iff, Bool.and_eq_true, exists_and_left,
        exists_const]
      rw [List.forall_mem_cons, output_cons, output_cons, List.map_append, and_assoc, ← hnext]
      simp only [and_assoc, exists_and_left]

/-- A run exits successfully exactly if no call fails. -/
theorem tee_eq_ok_iff (t : Tee) (f : Cells UInt8) (out : List UInt8) :
    tee t = .ok (f, out) ↔ t.Succeeds ∧
      f = t.opened.cells ++ (output t.rounds .file).map some ∧ out = output t.rounds .stdout := by
  have hstart : t.opened.AtEnd := by
    intro happend
    have hfalse : t.shouldAppend = false := happend
    simp [Tee.opened, hfalse]
  have hloop := teeLoop_eq_ok_iff t.openFd t.rounds hstart [] f out
  rw [List.nil_append] at hloop
  unfold tee
  simp only [bind_eq_ok_iff, require_eq_ok_iff, pure_eq_ok_iff, Bool.and_eq_true, exists_and_left,
    exists_const]
  constructor
  · rintro ⟨r, hrun, hread, ⟨hopen, hclose⟩, hr⟩
    obtain ⟨hwrite, hf, hout⟩ := hloop.mp ⟨r, hrun, hr⟩
    exact ⟨⟨hopen, fun r hr => (hwrite r hr).2, hread, hclose⟩, hf, hout⟩
  · rintro ⟨ht, hf, hout⟩
    obtain ⟨r, hrun, hr⟩ := hloop.mpr ⟨fun r hr => ⟨ht.openFd, ht.write r hr⟩, hf, hout⟩
    exact ⟨r, hrun, ht.readEnds, ⟨ht.openFd, ht.closeFd⟩, hr⟩

@[simp] theorem content_opened (t : Tee) :
    content t.opened.cells = if t.shouldAppend then content t.old else [] := by
  cases h : t.shouldAppend <;> simp [Tee.opened, h, content]

end Tee

/-- A run that exits successfully has copied all of its input exactly if no `write` of it was
short. -/
theorem copy_complete_iff (c : Cp) (t : Tee) :
    ((∀ f, cpholes c = .ok f → content f = input c.rounds) ↔
        (c.Succeeds → ∀ r ∈ c.rounds, r.Full ())) ∧
      ((∀ f out, tee t = .ok (f, out) → out = input t.rounds ∧
          content f = (if t.shouldAppend then content t.old else []) ++ input t.rounds) ↔
        (t.Succeeds → ∀ r ∈ t.rounds, r.Full .file ∧ r.Full .stdout)) := by
  constructor
  · rw [← output_eq_iff]
    constructor
    · intro h hc
      have hcontent := h _ ((cpholes_eq_ok_iff c _).mpr ⟨hc, rfl⟩)
      rwa [content_map_some] at hcontent
    · intro h f hf
      obtain ⟨hc, rfl⟩ := (cpholes_eq_ok_iff c f).mp hf
      rw [content_map_some, h hc]
  · have hfull : (∀ r ∈ t.rounds, r.Full .file ∧ r.Full .stdout) ↔
        output t.rounds .stdout = input t.rounds ∧ output t.rounds .file = input t.rounds := by
      rw [output_eq_iff, output_eq_iff, ← forall₂_and]
      exact forall₂_congr fun r _ => and_comm
    rw [hfull]
    constructor
    · intro h ht
      obtain ⟨hout, hcontent⟩ := h _ _ ((tee_eq_ok_iff t _ _).mpr ⟨ht, rfl, rfl⟩)
      rw [content_append, content_opened, content_map_some] at hcontent
      exact ⟨hout, List.append_cancel_left hcontent⟩
    · intro h f out hrun
      obtain ⟨ht, rfl, rfl⟩ := (tee_eq_ok_iff t f out).mp hrun
      obtain ⟨hout, hfile⟩ := h ht
      rw [content_append, content_opened, content_map_some, hfile]
      exact ⟨hout, rfl⟩

/-- A `write` of two bytes that takes only the first. -/
def shortRound (σ : Type) : Round σ := ⟨[97, 98], by decide, by decide, fun _ => some 1⟩

/-- After a short write both programs exit successfully without the second byte. -/
theorem short_write_drops_bytes :
    cpholes ⟨true, true, [shortRound Unit], true, true, true⟩ = .ok [some 97] ∧
      tee ⟨false, [], true, [shortRound Sink], true, true⟩ = .ok ([some 97], [97]) ∧
      input [shortRound Unit] = [97, 98] ∧ input [shortRound Sink] = [97, 98] :=
  ⟨rfl, rfl, rfl, rfl⟩

/-- The target of a run that exits successfully has the content of the source and its holes exactly
if no `write` was short and the source has no holes: `cpholes` writes the zeros of a hole like
other bytes. Nothing is said about runs in which a call fails. -/
theorem cpholes_keeps_holes_iff (extents : List (Extent UInt8)) (c : Cp)
    (hsource : input c.rounds = content (layout extents)) :
    (∀ f, cpholes c = .ok f → content f = content (layout extents) ∧
        ∀ i, InHole (layout extents) i → ¬ Written f i ∧ InHole f i) ↔
      (c.Succeeds → (∀ r ∈ c.rounds, r.Full ()) ∧ ∀ n, Extent.hole n ∈ extents → n = 0) := by
  rw [← output_eq_iff, hsource]
  constructor
  · intro h hc
    obtain ⟨hcontent, hholes⟩ := h _ ((cpholes_eq_ok_iff c _).mpr ⟨hc, rfl⟩)
    rw [content_map_some] at hcontent
    refine ⟨hcontent, ?_⟩
    by_contra! hhole
    obtain ⟨i, hi⟩ := (exists_inHole_iff extents).mpr hhole
    have hlen : i < (output c.rounds ()).length := by
      rw [hcontent, length_content]
      exact (List.getElem?_eq_some_iff.mp hi).1
    exact (hholes i hi).1 (written_map_some hlen)
  · intro h f hf
    obtain ⟨hc, rfl⟩ := (cpholes_eq_ok_iff c f).mp hf
    obtain ⟨hcontent, hnone⟩ := h hc
    refine ⟨by rw [content_map_some, hcontent], fun i hi => ?_⟩
    obtain ⟨n, hn, hpos⟩ := (exists_inHole_iff extents).mp ⟨i, hi⟩
    exact absurd (hnone n hn) hpos

/-- A run that reads these chunks and writes each of them in full. -/
def copyRun (chunks : List {buf : List UInt8 // buf ≠ [] ∧ buf.length ≤ bufSize}) : Cp where
  openA := true
  openB := true
  rounds := chunks.map fun c => ⟨c.val, c.property.1, c.property.2, fun _ => some (Fin.last _)⟩
  readEnds := true
  closeA := true
  closeB := true

theorem copyRun_succeeds (chunks : List {buf : List UInt8 // buf ≠ [] ∧ buf.length ≤ bufSize}) :
    (copyRun chunks).Succeeds ∧ ∀ r ∈ (copyRun chunks).rounds, r.Full () := by
  have hfull : ∀ r ∈ (copyRun chunks).rounds, r.Full () := by
    intro r hr
    obtain ⟨c, -, rfl⟩ := List.mem_map.mp hr
    rfl
  exact ⟨⟨rfl, rfl, fun r hr => by rw [hfull r hr]; rfl, rfl, rfl, rfl⟩, hfull⟩

/-- Twelve bytes `a` and fifteen bytes `b`, with a hole of so many bytes between them. -/
def gap (n : ℕ) : List (Extent UInt8) :=
  [.data (.replicate 12 97), .hole n, .data (.replicate 15 98)]

/-- With no hole in between, read in chunks of ten, ten and seven bytes, both are copied; a hole of
eleven bytes is filled. -/
theorem cpholes_keeps_holes_iff_data :
    (∀ f, cpholes (copyRun [⟨.replicate 10 97, by decide⟩,
          ⟨.replicate 2 97 ++ .replicate 8 98, by decide⟩, ⟨.replicate 7 98, by decide⟩]) = .ok f →
        content f = content (layout (gap 0)) ∧
          ∀ i, InHole (layout (gap 0)) i → ¬ Written f i ∧ InHole f i) ∧
      ¬ ∀ f, cpholes (copyRun [⟨.replicate 10 97, by decide⟩,
          ⟨.replicate 2 97 ++ .replicate 8 0, by decide⟩,
          ⟨.replicate 3 0 ++ .replicate 7 98, by decide⟩, ⟨.replicate 8 98, by decide⟩]) = .ok f →
        content f = content (layout (gap 11)) ∧
          ∀ i, InHole (layout (gap 11)) i → ¬ Written f i ∧ InHole f i := by
  constructor
  · refine (cpholes_keeps_holes_iff (gap 0) _ (by decide)).mpr fun _ => ?_
    exact ⟨(copyRun_succeeds _).2, by simp [gap]⟩
  · intro h
    have hnone := ((cpholes_keeps_holes_iff (gap 11) _ (by decide)).mp h (copyRun_succeeds _).1).2
    exact absurd (hnone 11 (by simp [gap])) (by decide)

/-- A hole of one byte is a written zero in the target. -/
theorem cpholes_fills_hole :
    input (copyRun [⟨[0], by decide⟩]).rounds = content (layout [.hole 1]) ∧
      cpholes (copyRun [⟨[0], by decide⟩]) = .ok [some 0] ∧
      InHole (layout [.hole 1] : Cells UInt8) 0 ∧ Written [some (0 : UInt8)] 0 :=
  ⟨rfl, rfl, rfl, 0, rfl⟩

end TlpiExercises.CopyHoles
