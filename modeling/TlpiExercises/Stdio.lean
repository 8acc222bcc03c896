import Mathlib.Tactic

/-!
# Buffered output

What a process prints stays in a buffer of the process until the library writes it. How much of
the buffer is written after a print is up to the library: `policy` says for the bytes in the buffer
how many of them go out, such as none for a large buffer or, on a terminal, all of them up to the
last newline. The error stream is not buffered. Both streams go to one file.
-/
namespace TlpiExercises.Stdio

structure Output where
  buffer : List UInt8
  file : List UInt8
  deriving DecidableEq, Repr

namespace Output

/-- Nothing is printed yet. -/
def empty : Output := ⟨[], []⟩

def printf (policy : List UInt8 → ℕ) (text : List UInt8) (out : Output) : Output :=
  let bytes := out.buffer ++ text
  ⟨bytes.drop (policy bytes), out.file ++ bytes.take (policy bytes)⟩

/-- `fflush(stdout)`, which `exit` does too. -/
def flush (out : Output) : Output := ⟨[], out.file ++ out.buffer⟩

/-- A text for the error stream. -/
def fputs (text : List UInt8) (out : Output) : Output := { out with file := out.file ++ text }

/-- Everything that was printed, whether it is written or not. -/
def printed (out : Output) : List UInt8 := out.file ++ out.buffer

variable {policy : List UInt8 → ℕ} (text : List UInt8) (out : Output)

@[simp] theorem printed_empty : empty.printed = [] := rfl

@[simp] theorem printed_printf : (out.printf policy text).printed = out.printed ++ text := by
  simp [printf, printed]

@[simp] theorem printed_flush : out.flush.printed = out.printed := by simp [flush, printed]

@[simp] theorem file_flush : out.flush.file = out.printed := rfl

@[simp] theorem buffer_flush : out.flush.buffer = [] := rfl

@[simp] theorem file_fputs : (out.fputs text).file = out.file ++ text := rfl

@[simp] theorem buffer_fputs : (out.fputs text).buffer = out.buffer := rfl

/-- After a flush the order of the two streams is kept. -/
@[simp] theorem printed_fputs_flush : (out.flush.fputs text).printed = out.printed ++ text := by
  simp [printed]

theorem printed_eq : out.printed = out.file ++ out.buffer := rfl

/-- A policy that writes all of the buffer leaves nothing in it. -/
theorem printf_of_all (h : policy (out.buffer ++ text) = (out.buffer ++ text).length) :
    out.printf policy text = ⟨[], out.printed ++ text⟩ := by
  simp [printf, printed, h]

/-- A policy that keeps the buffer writes nothing. -/
theorem printf_of_none (h : policy (out.buffer ++ text) = 0) :
    out.printf policy text = ⟨out.buffer ++ text, out.file⟩ := by
  simp [printf, h]

/-- What stays in the buffer is the end of what was there and of the text. -/
theorem buffer_printf_suffix : (out.printf policy text).buffer <:+ out.buffer ++ text :=
  List.drop_suffix _ _

end Output

end TlpiExercises.Stdio
