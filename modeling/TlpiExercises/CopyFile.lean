import TlpiExercises.AtomicAppend

/-!
# Copies between names of files

`copy` opens the old file, empties the new one and copies until `read` returns 0. Two names may
stand for one file, which is then empty before its first byte is read. `read` returns as many bytes
as it likes, but at least one before the end of the file, and `write` writes any part of the
buffer; every call may fail.
-/
namespace TlpiExercises.CopyFile

/-- `BUF_SIZE`. -/
abbrev bufSize : ℕ := 1024

/-- The names with the files they stand for, and the contents of the files. -/
structure Fs where
  inode : List UInt8 → Option ℕ
  content : ℕ → List UInt8

/-- How the calls go: whether the two `open` succeed, how many bytes beyond one the `read` of a round
wants, how many the `write` of a round writes, with `none` for a failure, and whether the two
`close` succeed. A new file is `fresh`. -/
structure Calls where
  openInput : Bool
  openOutput : Bool
  fresh : ℕ
  read : ℕ → Option ℕ
  write : ℕ → Option ℕ
  closeInput : Bool
  closeOutput : Bool

/-- How the program ends. -/
inductive Exit where
  | usage
  | openInput
  | openOutput
  | write
  | read
  | closeInput
  | closeOutput
  | success
  deriving DecidableEq, Repr

def Fs.store (fs : Fs) (file : ℕ) (bytes : List UInt8) : Fs :=
  { fs with content := Function.update fs.content file bytes }

/-- `open` with `O_CREAT | O_TRUNC`: the file, which is empty. -/
def Fs.openTrunc (fs : Fs) (fresh : ℕ) (name : List UInt8) : ℕ × Fs :=
  let file := (fs.inode name).getD fresh
  (file, { fs with inode := Function.update fs.inode name (some file) }.store file [])

/-- The loop from round `i` on, with the positions in the two files: the error, or `success` for the
end of the input. -/
def transfer (calls : Calls) (input output : ℕ) : ℕ → ℕ → ℕ → ℕ → Fs → Option (Exit × Fs)
  | 0, _, _, _, _ => none
  | fuel + 1, i, inPos, outPos, fs =>
      match calls.read i with
      | none => some (.read, fs)
      | some more =>
          let buf := ((fs.content input).drop inPos).take (min bufSize (more + 1))
          if buf = [] then some (.success, fs)
          else
            match calls.write i with
            | none => some (.write, fs)
            | some count =>
                let data := buf.take count
                let fs := fs.store output (AtomicAppend.writeAt (fs.content output) outPos data)
                if data.length ≠ buf.length then some (.write, fs)
                else
                  transfer calls input output fuel (i + 1) (inPos + buf.length)
                    (outPos + buf.length) fs

/-- What follows the loop. -/
def Calls.finish (calls : Calls) (result : Exit) : Exit :=
  if result ≠ .success then result
  else if !calls.closeInput then .closeInput
  else if !calls.closeOutput then .closeOutput
  else .success

/-- `main`, for the arguments after the name of the program. -/
def main (calls : Calls) (fuel : ℕ) (args : List (List UInt8)) (fs : Fs) : Option (Exit × Fs) :=
  match args with
  | [old, new] =>
      if old = [45, 45, 104, 101, 108, 112] then some (.usage, fs)
      else
        match fs.inode old with
        | none => some (.openInput, fs)
        | some input =>
            if !calls.openInput then some (.openInput, fs)
            else if !calls.openOutput then some (.openOutput, fs)
            else do
              let (output, fs) := fs.openTrunc calls.fresh new
              let (result, fs) ← transfer calls input output fuel 0 0 0 fs
              return (calls.finish result, fs)
  | _ => some (.usage, fs)

section Loop

variable {calls : Calls} {input output : ℕ}

/-- The end of the loop, for the content of the input: only the output is changed, to a part of the
input, which is all of it unless a call failed. -/
structure Copied (input output : ℕ) (text : List UInt8) (fs : Fs) (result : Exit) (fs' : Fs) :
    Prop where
  inode : fs'.inode = fs.inode
  others : ∀ file, file ≠ output → fs'.content file = fs.content file
  part : fs'.content output <+: text
  whole : result = .success → fs'.content output = text
  kind : result = .success ∨ result = .read ∨ result = .write

@[simp] theorem content_store_self (fs : Fs) (file : ℕ) (bytes : List UInt8) :
    (fs.store file bytes).content file = bytes := Function.update_self ..

theorem content_store_of_ne (fs : Fs) {file file' : ℕ} (h : file' ≠ file) (bytes : List UInt8) :
    (fs.store file bytes).content file' = fs.content file' := Function.update_of_ne h ..

theorem Copied.of_store {text bytes : List UInt8} {fs fs' : Fs} {result : Exit}
    (h : Copied input output text (fs.store output bytes) result fs') :
    Copied input output text fs result fs' where
  inode := h.inode
  others file hfile := (h.others file hfile).trans (content_store_of_ne fs hfile bytes)
  part := h.part
  whole := h.whole
  kind := h.kind

/-- A call failed, and nothing was written. -/
theorem Copied.of_failed {done rest : List UInt8} {fs : Fs} (houtput : fs.content output = done)
    {result : Exit} (h : result = .read ∨ result = .write) :
    Copied input output (done ++ rest) fs result fs where
  inode := rfl
  others _ _ := rfl
  part := houtput ▸ List.prefix_append _ _
  whole hsuccess := by
    rw [hsuccess] at h
    simp at h
  kind := .inr h

theorem transfer_copied (calls : Calls) (hne : input ≠ output) (fuel i : ℕ) {done rest : List UInt8} {fs : Fs}
    (hinput : fs.content input = done ++ rest) (houtput : fs.content output = done)
    (hfuel : rest.length < fuel) :
    ∃ result fs', transfer calls input output fuel i done.length done.length fs =
        some (result, fs') ∧ Copied input output (done ++ rest) fs result fs' := by
  induction fuel generalizing i done rest fs with
  | zero => omega
  | succ fuel ih =>
      rw [transfer]
      cases hread : calls.read i with
      | none => exact ⟨_, _, rfl, Copied.of_failed houtput (.inl rfl)⟩
      | some more =>
          simp only [hinput, List.drop_left]
          split_ifs with hbuf
          · -- nothing is read only at the end of the input
            have hrest : rest = [] := by
              rcases List.take_eq_nil_iff.mp hbuf with h | h
              · exact absurd h (by simp)
              · exact h
            refine ⟨_, _, rfl, rfl, fun _ _ => rfl, houtput ▸ List.prefix_append _ _, fun _ => ?_,
              .inl rfl⟩
            rw [houtput, hrest, List.append_nil]
          · cases hwrite : calls.write i with
            | none => exact ⟨_, _, rfl, Copied.of_failed houtput (.inr rfl)⟩
            | some count =>
                simp only [houtput, AtomicAppend.writeAt_end]
                generalize hn : min bufSize (more + 1) = n at hbuf
                split_ifs with hshort
                · refine ⟨_, _, rfl, Copied.of_store ⟨rfl, fun _ _ => rfl, ?_, nofun, .inr (.inr rfl)⟩⟩
                  rw [content_store_self]
                  exact (List.prefix_append_right_inj done).mpr
                    (( List.take_prefix _ _).trans ( List.take_prefix _ _))
                · have hdata : (rest.take n).take count = rest.take n :=
                    ( List.take_prefix count _).eq_of_length (not_not.mp hshort)
                  have hpos : 0 < (rest.take n).length := List.length_pos_iff.mpr hbuf
                  have hsplit : done ++ rest = (done ++ rest.take n) ++ rest.drop n := by
                    rw [List.append_assoc, List.take_append_drop]
                  have hlen : done.length + (rest.take n).length = (done ++ rest.take n).length :=
                    List.length_append.symm
                  rw [hdata, hlen, hsplit]
                  have hinput' : (fs.store output (done ++ rest.take n)).content input =
                      (done ++ rest.take n) ++ rest.drop n := by
                    rw [content_store_of_ne fs hne, hinput, hsplit]
                  have hfuel' : (rest.drop n).length < fuel := by
                    rw [List.length_take] at hpos
                    rw [List.length_drop]
                    omega
                  obtain ⟨result, fs', hrun, hcopied⟩ :=
                    ih (i + 1) hinput' (content_store_self ..) hfuel'
                  exact ⟨result, fs', hrun, hcopied.of_store⟩

/-- An empty file has nothing to copy. -/
theorem transfer_empty (calls : Calls) (output fuel : ℕ) {fs : Fs} (h : fs.content input = []) :
    ∃ result, transfer calls input output (fuel + 1) 0 0 0 fs = some (result, fs) ∧
      result ≠ .write := by
  rw [transfer]
  cases calls.read 0 with
  | none => exact ⟨_, rfl, nofun⟩
  | some more => exact ⟨.success, by simp [h], nofun⟩

theorem Calls.finish_eq_success {result : Exit} (h : calls.finish result = .success) :
    result = .success := by
  unfold finish at h
  split_ifs at h with hresult
  · exact absurd h hresult
  · exact not_not.mp hresult

theorem Calls.finish_ne_write {result : Exit} (h : result ≠ .write) :
    calls.finish result ≠ .write := by
  unfold finish
  split_ifs <;> first | exact h | nofun

end Loop

/-- Whatever the calls do: a copy to another file changes that file only, to a part of the old one,
and to all of it if the program succeeds. A copy to a name of the same file empties it, and the
program succeeds or fails as it does for an empty file. -/
theorem main_copies (calls : Calls) (fuel : ℕ) {old new : List UInt8} {fs : Fs} {input output : ℕ}
    (hhelp : old ≠ [45, 45, 104, 101, 108, 112]) (hold : fs.inode old = some input)
    (hnew : (fs.inode new).getD calls.fresh = output) (hopenInput : calls.openInput)
    (hopenOutput : calls.openOutput) (hfuel : (fs.content input).length < fuel) :
    ∃ result fs', main calls fuel [old, new] fs = some (result, fs') ∧
      fs'.inode = Function.update fs.inode new (some output) ∧
      (∀ file, file ≠ output → fs'.content file = fs.content file) ∧
      (input ≠ output → fs'.content output <+: fs.content input ∧
        (result = .success → fs'.content output = fs.content input)) ∧
      (input = output → fs'.content output = [] ∧ result ≠ .write) := by
  let opened : Fs :=
    { fs with inode := Function.update fs.inode new (some output) }.store output []
  have hempty : opened.content output = [] := content_store_self ..
  have hmain : main calls fuel [old, new] fs =
      (transfer calls input output fuel 0 0 0 opened).map fun r => (calls.finish r.1, r.2) := by
    simp only [main, if_neg hhelp, hold, hopenInput, hopenOutput, Fs.openTrunc, hnew,
      Bool.not_true, Bool.false_eq_true, if_false, Option.map_eq_bind]
    rfl
  have hothers : ∀ file, file ≠ output → opened.content file = fs.content file :=
    fun file hfile => content_store_of_ne _ hfile []
  by_cases hsame : input = output
  · obtain ⟨fuel, rfl⟩ := Nat.exists_eq_add_of_lt hfuel
    have hinput : opened.content input = [] := hsame ▸ hempty
    obtain ⟨result, hrun, hresult⟩ := transfer_empty calls output _ hinput
    refine ⟨_, _, by rw [hmain, hrun]; rfl, rfl, hothers, fun h => absurd hsame h, fun _ => ?_⟩
    exact ⟨hempty, Calls.finish_ne_write hresult⟩
  · have hinput : opened.content input = [] ++ fs.content input := hothers input hsame
    obtain ⟨result, fs', hrun, hcopied⟩ := transfer_copied calls hsame fuel 0 hinput
      hempty hfuel
    refine ⟨_, _, by rw [hmain]; exact congrArg _ hrun, hcopied.inode,
      fun file hfile => (hcopied.others file hfile).trans (hothers file hfile), fun _ => ?_,
      fun h => absurd h hsame⟩
    exact ⟨hcopied.part, fun h => hcopied.whole (Calls.finish_eq_success h)⟩

/-- The names `a` and `b` of one file with a byte. -/
def linked : Fs := ⟨fun name => if name = [97] ∨ name = [98] then some 1 else none, fun _ => [120]⟩

/-- Every call succeeds. -/
def succeeding : Calls := ⟨true, true, 2, fun _ => some 0, fun _ => some 1, true, true⟩

/-- A copy from `a` to `b` loses the byte. -/
theorem main_copies_linked :
    ∃ fs', main succeeding 2 [[97], [98]] linked = some (.success, fs') ∧
      linked.content 1 = [120] ∧ fs'.content 1 = [] := by
  have hold : linked.inode [97] = some 1 := rfl
  have hnew : (linked.inode [98]).getD succeeding.fresh = 1 := rfl
  obtain ⟨result, fs', hrun, -, -, -, hsame⟩ :=
    main_copies succeeding 2 (by decide) hold hnew rfl rfl (by decide)
  have hsuccess : (main succeeding 2 [[97], [98]] linked).map Prod.fst = some .success := rfl
  obtain rfl : result = .success := by simpa [hrun] using hsuccess
  exact ⟨fs', hrun, rfl, (hsame rfl).1⟩

end TlpiExercises.CopyFile
