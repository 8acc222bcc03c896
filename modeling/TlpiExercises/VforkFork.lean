import TlpiExercises.ErrorFunctions

/-!
# What the children of `fork` and `vfork` print

The program prints two lines and then creates children that do nothing but `exit`, which writes
the buffer of the standard output. A child of `fork` has a copy of the buffer. A child of `vfork`
runs in the memory of its parent, so that the buffer is empty afterwards. A process without
handlers that waits for its only child is not interrupted: `wait` returns the child.
-/
namespace TlpiExercises.VforkFork
open CText Stdio ErrorFunctions

/-- `fork`, the `exit` of the child and `wait`. -/
def forkRound (out : Output) : Output :=
  let child := out
  { out with file := child.flush.file }

/-- `vfork`, the `exit` of the child and `wait`. -/
def vforkRound (out : Output) : Output := out.flush

/-- The loop of `test_fork` and `test_vfork` from round `i` on, if so many rounds are left: whether
it came to its end, and the output. The call of round `i` fails if `fails i`. -/
def testLoop (round : Output → Output) (fails : ℕ → Bool) : ℕ → ℕ → Output → Bool × Output
  | 0, _, out => (true, out)
  | n + 1, i, out => if fails i then (false, out) else testLoop round fails n (i + 1) (round out)

/-- `for (int i = 0; i < iter; i++)`. -/
def test (round : Output → Output) (fails : ℕ → Bool) (iter : Int32) (out : Output) :
    Bool × Output :=
  testLoop round fails iter.toInt.toNat 0 out

def testFork := test forkRound

def testVfork := test vforkRound

/-- `exit`, also at the end of `main`. -/
def exit (status : ℕ) (out : Output) : Ending × Output := (.exited status, out.flush)

/-- The line about the test. -/
def header (name : String) (iter : Int32) (bytes : ℤ) : List UInt8 :=
  ascii "Test " ++ ascii name ++ ascii " - " ++ printInt iter.toInt ++ ascii " iterations - " ++
    printInt bytes ++ ascii " bytes\n"

/-- `main`, for the arguments after the name of the program. The last byte of the block is read
before the result of `malloc` is tested, so that there has to be one. -/
def main (policy : List UInt8 → ℕ) (malloc : ℕ → Bool) (fails : ℕ → Bool) :
    List (List UInt8) → Option (Ending × Output)
  | kind :: iterArg :: bytesArg :: _ =>
      let long := strtol bytesArg
      let bytes := (long % 2 ^ 64).toNat
      let iter := atoi iterArg
      if malloc bytes ∧ 0 < bytes then
        let out := Output.empty.printf policy (ascii "1\n")
        let (name, test) :=
          if kind = ascii "vfork" then ("vfork", testVfork) else ("fork", testFork)
        let (done, out) := test fails iter (out.printf policy (header name iter long))
        some (exit (if done then 0 else exitFailure) out)
      else none
  | _ =>
      let usage := ascii "Usage:\n./a.out fork|vfork ITERATIONS BYTES_ALLOCATED\n"
      some (exit exitFailure (Output.empty.printf policy usage))

/-- The number of children that are created. -/
def children (fails : ℕ → Bool) (iter : Int32) : ℕ :=
  ((List.range iter.toInt.toNat).takeWhile fun i => !fails i).length

/-- What is in the buffer when the children are created. -/
def unwritten (policy : List UInt8 → ℕ) (line : List UInt8) : List UInt8 :=
  ((Output.empty.printf policy (ascii "1\n")).printf policy line).buffer

section Loop

variable {round : Output → Output} {fails : ℕ → Bool}

/-- The loop makes its rounds up to the first call that fails. -/
theorem testLoop_eq (n i : ℕ) (out : Output) :
    testLoop round fails n i out =
      (decide (((List.range' i n).takeWhile fun j => !fails j).length = n),
        round^[((List.range' i n).takeWhile fun j => !fails j).length] out) := by
  induction n generalizing i out with
  | zero => simp [testLoop]
  | succ n ih =>
      rw [testLoop, List.range'_succ, List.takeWhile_cons]
      cases hi : fails i with
      | true => simp
      | false => simp [ih]

theorem test_eq (iter : Int32) (out : Output) :
    test round fails iter out =
      (decide (children fails iter = iter.toInt.toNat), round^[children fails iter] out) := by
  rw [test, testLoop_eq, children, List.range_eq_range']

theorem forkRound_iterate (k : ℕ) (out : Output) :
    forkRound^[k] out = ⟨out.buffer, out.file ++ (List.replicate k out.buffer).flatten⟩ := by
  induction k generalizing out with
  | zero => simp
  | succ k ih =>
      rw [Function.iterate_succ_apply, ih]
      simp [forkRound, Output.printed, List.replicate_succ]

theorem vforkRound_printed (k : ℕ) (out : Output) : (vforkRound^[k] out).printed = out.printed := by
  induction k generalizing out with
  | zero => rfl
  | succ k ih => rw [Function.iterate_succ_apply, ih, vforkRound, Output.printed_flush]

end Loop

/-- The children of `fork` write again what was in the buffer when they were created, each of them
once, and those of `vfork` do not; the program fails if a child could not be created. -/
theorem fork_repeats_buffer (policy : List UInt8 → ℕ) (malloc : ℕ → Bool) (fails : ℕ → Bool)
    (kind iterArg bytesArg : List UInt8) (more : List (List UInt8))
    (hmalloc : malloc (strtol bytesArg % 2 ^ 64).toNat)
    (hbytes : 0 < (strtol bytesArg % 2 ^ 64).toNat) :
    main policy malloc fails (kind :: iterArg :: bytesArg :: more) =
      some (.exited (if children fails (atoi iterArg) = (atoi iterArg).toInt.toNat then 0
          else exitFailure),
        ⟨[], if kind = ascii "vfork" then
            ascii "1\n" ++ header "vfork" (atoi iterArg) (strtol bytesArg)
          else
            ascii "1\n" ++ header "fork" (atoi iterArg) (strtol bytesArg) ++
              (List.replicate (children fails (atoi iterArg))
                (unwritten policy (header "fork" (atoi iterArg) (strtol bytesArg)))).flatten⟩) := by
  have hprinted : ∀ line, ((Output.empty.printf policy (ascii "1\n")).printf policy line).printed =
      ascii "1\n" ++ line := by simp
  simp only [main, if_pos (And.intro hmalloc hbytes)]
  by_cases hkind : kind = ascii "vfork"
  · simp only [if_pos hkind, testVfork, test_eq, exit, Output.flush, decide_eq_true_eq]
    rw [← Output.printed_eq, vforkRound_printed, hprinted]
  · simp only [if_neg hkind, testFork, test_eq, exit, Output.flush, decide_eq_true_eq,
      forkRound_iterate]
    rw [List.append_assoc, ← List.flatten_concat, ← List.replicate_succ', List.replicate_succ,
      List.flatten_cons, ← List.append_assoc, ← Output.printed_eq, hprinted]
    rfl

/-- Two children and a buffer that is not written: the lines are there three times. -/
theorem fork_repeats_buffer_two :
    ∃ out, main (fun _ => 0) (fun _ => true) (fun _ => false) [ascii "fork", ascii "2", ascii "1"] =
        some (.exited 0, out) ∧
      out.file = (List.replicate 3 (ascii "1\nTest fork - 2 iterations - 1 bytes\n")).flatten := by
  have hmain := fork_repeats_buffer (fun _ => 0) (fun _ => true) (fun _ => false) (ascii "fork")
    (ascii "2") (ascii "1") [] rfl (by decide)
  exact ⟨_, hmain, by decide⟩

end TlpiExercises.VforkFork
