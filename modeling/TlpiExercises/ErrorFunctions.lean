import TlpiExercises.CText
import TlpiExercises.Stdio

/-!
# The functions that report errors

Each of them prints a text on the error stream, most of them after what is still in the buffer of
the standard output, and all but `errMsg` end the process. The arguments of a message are already
filled in, `strerror` is any function, and each call leaves any number in `errno`, unless it
restores it.
-/
namespace TlpiExercises.ErrorFunctions
open CText Stdio

/-- `BUF_SIZE`. -/
abbrev bufSize : ℕ := 500

/-- `MAX_ENAME`. -/
abbrev maxEname : ℕ := 133

/-- The names of the errors. -/
def ename : List String :=
  ["", "EPERM", "ENOENT", "ESRCH", "EINTR", "EIO", "ENXIO", "E2BIG", "ENOEXEC", "EBADF", "ECHILD",
    "EAGAIN/EWOULDBLOCK", "ENOMEM", "EACCES", "EFAULT", "ENOTBLK", "EBUSY", "EEXIST", "EXDEV",
    "ENODEV", "ENOTDIR", "EISDIR", "EINVAL", "ENFILE", "EMFILE", "ENOTTY", "ETXTBSY", "EFBIG",
    "ENOSPC", "ESPIPE", "EROFS", "EMLINK", "EPIPE", "EDOM", "ERANGE", "EDEADLK/EDEADLOCK",
    "ENAMETOOLONG", "ENOLCK", "ENOSYS", "ENOTEMPTY", "ELOOP", "", "ENOMSG", "EIDRM", "ECHRNG",
    "EL2NSYNC", "EL3HLT", "EL3RST", "ELNRNG", "EUNATCH", "ENOCSI", "EL2HLT", "EBADE", "EBADR",
    "EXFULL", "ENOANO", "EBADRQC", "EBADSLT", "", "EBFONT", "ENOSTR", "ENODATA", "ETIME", "ENOSR",
    "ENONET", "ENOPKG", "EREMOTE", "ENOLINK", "EADV", "ESRMNT", "ECOMM", "EPROTO", "EMULTIHOP",
    "EDOTDOT", "EBADMSG", "EOVERFLOW", "ENOTUNIQ", "EBADFD", "EREMCHG", "ELIBACC", "ELIBBAD",
    "ELIBSCN", "ELIBMAX", "ELIBEXEC", "EILSEQ", "ERESTART", "ESTRPIPE", "EUSERS", "ENOTSOCK",
    "EDESTADDRREQ", "EMSGSIZE", "EPROTOTYPE", "ENOPROTOOPT", "EPROTONOSUPPORT", "ESOCKTNOSUPPORT",
    "EOPNOTSUPP/ENOTSUP", "EPFNOSUPPORT", "EAFNOSUPPORT", "EADDRINUSE", "EADDRNOTAVAIL",
    "ENETDOWN", "ENETUNREACH", "ENETRESET", "ECONNABORTED", "ECONNRESET", "ENOBUFS", "EISCONN",
    "ENOTCONN", "ESHUTDOWN", "ETOOMANYREFS", "ETIMEDOUT", "ECONNREFUSED", "EHOSTDOWN",
    "EHOSTUNREACH", "EALREADY", "EINPROGRESS", "ESTALE", "EUCLEAN", "ENOTNAM", "ENAVAIL",
    "EISNAM", "EREMOTEIO", "EDQUOT", "ENOMEDIUM", "EMEDIUMTYPE", "ECANCELED", "ENOKEY",
    "EKEYEXPIRED", "EKEYREVOKED", "EKEYREJECTED", "EOWNERDEAD", "ENOTRECOVERABLE", "ERFKILL",
    "EHWPOISON"]

/-- The name of an error, where it has one. -/
def errName (err : ℤ) : List UInt8 :=
  ascii (if 0 < err ∧ err ≤ maxEname then ename.getD err.toNat "" else "?UNKNOWN?")

/-- `errText`, before it is cut to its buffer. -/
def errText (strerror : ℤ → List UInt8) (useErr : Bool) (err : ℤ) : List UInt8 :=
  if useErr then ascii " [" ++ errName err ++ ascii " " ++ strerror err ++ ascii "]"
  else ascii ":"

/-- What `outputError` puts into `buf`. -/
def errorBuf (strerror : ℤ → List UInt8) (useErr : Bool) (err : ℤ) (msg : List UInt8) :
    List UInt8 :=
  let userMsg := snprintf bufSize msg
  let errText := snprintf bufSize (errText strerror useErr err)
  snprintf bufSize (ascii "ERROR" ++ errText ++ ascii " " ++ userMsg ++ ascii "\n")

structure Process where
  out : Output
  errno : ℤ

/-- The library calls leave `left` in `errno`. -/
def outputError (strerror : ℤ → List UInt8) (useErr : Bool) (err : ℤ) (flushStdout : Bool)
    (msg : List UInt8) (left : ℤ) (p : Process) : Process :=
  let out := if flushStdout then p.out.flush else p.out
  ⟨out.fputs (errorBuf strerror useErr err msg), left⟩

def errMsg (strerror : ℤ → List UInt8) (msg : List UInt8) (left : ℤ) (p : Process) : Process :=
  let savedErrno := p.errno
  { outputError strerror true p.errno true msg left p with errno := savedErrno }

/-- How a process ends. -/
inductive Ending where
  | exited (status : ℕ)
  | aborted
  deriving DecidableEq, Repr

/-- `EXIT_FAILURE`. -/
abbrev exitFailure : ℕ := 1

/-- `exit` writes the buffer of the standard output, `abort` and `_exit` do not. `dumpcore` is the
value of `EF_DUMPCORE`. -/
def terminate (dumpcore : Option (List UInt8)) (useExit3 : Bool) (out : Output) :
    Ending × Output :=
  if ∃ s ∈ dumpcore, s ≠ [] then (.aborted, out)
  else if useExit3 then (.exited exitFailure, out.flush)
  else (.exited exitFailure, out)

/-- The functions that do not return. -/
inductive Last where
  | errExit (msg : List UInt8)
  | err_exit (msg : List UInt8)
  | errExitEN (errnum : ℤ) (msg : List UInt8)
  | fatal (msg : List UInt8)
  | usageErr (msg : List UInt8)
  | cmdLineErr (msg : List UInt8)

section Run

variable (strerror : ℤ → List UInt8) (dumpcore : Option (List UInt8))

/-- `fflush`, a text and the message on the error stream, `exit`. -/
def usageExit (start : String) (msg : List UInt8) (p : Process) : Ending × Output :=
  (.exited exitFailure, ((p.out.flush.fputs (ascii start)).fputs msg).flush)

def Last.run (p : Process) : Last → Ending × Output
  | errExit msg => terminate dumpcore true (outputError strerror true p.errno true msg 0 p).out
  | err_exit msg => terminate dumpcore false (outputError strerror true p.errno false msg 0 p).out
  | errExitEN errnum msg => terminate dumpcore true (outputError strerror true errnum true msg 0 p).out
  | fatal msg => terminate dumpcore true (outputError strerror false 0 true msg 0 p).out
  | usageErr msg => usageExit "Usage: " msg p
  | cmdLineErr msg => usageExit "Command-line usage error: " msg p

/-- What a program does before: a call that sets `errno`, and the calls of `printf` and
`errMsg`. -/
inductive Call where
  | syscall (errno : ℤ)
  | printf (text : List UInt8)
  | errMsg (msg : List UInt8) (left : ℤ)

variable (policy : List UInt8 → ℕ)

def Call.run (p : Process) : Call → Process
  | syscall errno => { p with errno }
  | printf text => { p with out := p.out.printf policy text }
  | errMsg msg left => ErrorFunctions.errMsg strerror msg left p

/-- A program from its start, with `errno` as it is then, to its last call. -/
def run (errno : ℤ) (calls : List Call) (last : Last) : Ending × Output :=
  last.run strerror dumpcore (calls.foldl (Call.run strerror policy) ⟨.empty, errno⟩)

end Run

/-- A whole message: the error, the text of the caller and a newline. -/
def line (strerror : ℤ → List UInt8) (useErr : Bool) (err : ℤ) (msg : List UInt8) : List UInt8 :=
  ascii "ERROR" ++ errText strerror useErr err ++ ascii " " ++ msg ++ ascii "\n"

/-- What the calls of a program say, in the order of the program. -/
def said (strerror : ℤ → List UInt8) : ℤ → List Call → List UInt8
  | _, [] => []
  | _, .syscall errno :: calls => said strerror errno calls
  | errno, .printf text :: calls => text ++ said strerror errno calls
  | errno, .errMsg msg _ :: calls =>
      (line strerror true errno msg).take (bufSize - 1) ++ said strerror errno calls

/-- The error of the last call that has failed. -/
def lastErrno : ℤ → List Call → ℤ
  | errno, [] => errno
  | _, .syscall errno :: calls => lastErrno errno calls
  | errno, _ :: calls => lastErrno errno calls

/-- What was printed since the last message, after a text that was printed before. -/
def sinceMsg : List UInt8 → List Call → List UInt8
  | text, [] => text
  | text, .syscall _ :: calls => sinceMsg text calls
  | text, .printf text' :: calls => sinceMsg (text ++ text') calls
  | _, .errMsg _ _ :: calls => sinceMsg [] calls

/-- The message of the last call. -/
def Last.message (strerror : ℤ → List UInt8) (errno : ℤ) : Last → List UInt8
  | errExit msg | err_exit msg => (line strerror true errno msg).take (bufSize - 1)
  | errExitEN errnum msg => (line strerror true errnum msg).take (bufSize - 1)
  | fatal msg => (line strerror false 0 msg).take (bufSize - 1)
  | usageErr msg => ascii "Usage: " ++ msg
  | cmdLineErr msg => ascii "Command-line usage error: " ++ msg

section Messages

variable {strerror : ℤ → List UInt8}

theorem take_append_take {n k : ℕ} (h : n ≤ k) (a b c : List UInt8) :
    (a ++ (b.take k ++ c)).take n = (a ++ (b ++ c)).take n := by
  rcases le_total b.length k with hb | hb
  · rw [List.take_of_length_le hb]
  · have hlen : (b.take k).length = k := by rw [List.length_take, min_eq_left hb]
    have hc : n - a.length - k = 0 := by omega
    have hc' : n - a.length - b.length = 0 := by omega
    simp only [List.take_append, List.take_take, hlen, hc, hc', min_eq_left (show n - a.length ≤ k by omega)]

/-- The three buffers cut a message as one buffer does. -/
theorem errorBuf_eq (useErr : Bool) (err : ℤ) (msg : List UInt8) :
    errorBuf strerror useErr err msg = (line strerror useErr err msg).take (bufSize - 1) := by
  simp only [errorBuf, line, snprintf, List.append_assoc]
  rw [take_append_take le_rfl]
  have hmsg := take_append_take (le_refl (bufSize - 1))
    (ascii "ERROR" ++ (errText strerror useErr err ++ ascii " ")) msg (ascii "\n")
  simpa only [List.append_assoc] using hmsg

/-- One call: what is printed grows by what the call says, and `errno` changes only if another call
sets it. -/
theorem run_call (policy : List UInt8 → ℕ) (p : Process) (call : Call) :
    (call.run strerror policy p).out.printed = p.out.printed ++ said strerror p.errno [call] ∧
      (call.run strerror policy p).errno = lastErrno p.errno [call] ∧
      (call.run strerror policy p).out.buffer <:+ sinceMsg p.out.buffer [call] := by
  cases call with
  | syscall errno => simp [Call.run, said, lastErrno, sinceMsg]
  | printf text =>
      simp only [Call.run, said, lastErrno, sinceMsg, Output.printed_printf, List.append_nil,
        true_and]
      exact Output.buffer_printf_suffix text p.out
  | errMsg msg left =>
      simp [Call.run, errMsg, outputError, said, lastErrno, sinceMsg, errorBuf_eq]

theorem said_cons (errno : ℤ) (call : Call) (calls : List Call) :
    said strerror errno (call :: calls) =
      said strerror errno [call] ++ said strerror (lastErrno errno [call]) calls := by
  cases call <;> simp [said, lastErrno]

theorem lastErrno_cons (errno : ℤ) (call : Call) (calls : List Call) :
    lastErrno errno (call :: calls) = lastErrno (lastErrno errno [call]) calls := by
  cases call <;> rfl

theorem sinceMsg_cons (text : List UInt8) (call : Call) (calls : List Call) :
    sinceMsg text (call :: calls) = sinceMsg (sinceMsg text [call]) calls := by
  cases call <;> rfl

theorem sinceMsg_suffix {text text' : List UInt8} (h : text <:+ text') (calls : List Call) :
    sinceMsg text calls <:+ sinceMsg text' calls := by
  induction calls generalizing text text' with
  | nil => exact h
  | cons call calls ih =>
      cases call with
      | syscall errno => exact ih h
      | printf more =>
          obtain ⟨front, rfl⟩ := h
          exact ih ⟨front, (List.append_assoc ..).symm⟩
      | errMsg msg left => exact List.suffix_rfl

theorem run_calls (strerror : ℤ → List UInt8) (policy : List UInt8 → ℕ) (calls : List Call)
    (p : Process) :
    (calls.foldl (Call.run strerror policy) p).out.printed =
        p.out.printed ++ said strerror p.errno calls ∧
      (calls.foldl (Call.run strerror policy) p).errno = lastErrno p.errno calls ∧
      (calls.foldl (Call.run strerror policy) p).out.buffer <:+ sinceMsg p.out.buffer calls := by
  induction calls generalizing p with
  | nil => exact ⟨(List.append_nil _).symm, rfl, List.suffix_rfl⟩
  | cons call calls ih =>
      obtain ⟨hprinted, herrno, hbuffer⟩ := run_call policy p call
      obtain ⟨hprinted', herrno', hbuffer'⟩ := ih (call.run strerror policy p)
      rw [List.foldl_cons]
      refine ⟨?_, ?_, ?_⟩
      · rw [hprinted', hprinted, herrno, said_cons p.errno call calls, List.append_assoc]
      · rw [herrno', herrno, lastErrno_cons p.errno call calls]
      · rw [sinceMsg_cons p.out.buffer call calls]
        exact hbuffer'.trans (sinceMsg_suffix hbuffer calls)

/-- All but `err_exit` flush the standard output before their message. -/
def Last.flushes : Last → Bool
  | err_exit _ => false
  | _ => true

/-- `terminate` is called. -/
def Last.terminates : Last → Bool
  | usageErr _ | cmdLineErr _ => false
  | _ => true

theorem terminate_file (dumpcore : Option (List UInt8)) {useExit3 : Bool} {out : Output}
    (h : useExit3 → out.buffer = []) : (terminate dumpcore useExit3 out).2.file = out.file := by
  unfold terminate
  split_ifs with hdump huse
  · rfl
  · simp [Output.printed, h huse]
  · rfl

theorem Last.run_file (dumpcore : Option (List UInt8)) (p : Process) (last : Last) :
    (last.run strerror dumpcore p).2.file =
      (if last.flushes then p.out.printed else p.out.file) ++ last.message strerror p.errno := by
  cases last with
  | err_exit msg =>
      rw [run, terminate_file dumpcore (by simp)]
      simp [outputError, flushes, message, errorBuf_eq]
  | errExit msg | errExitEN errnum msg | fatal msg =>
      rw [run, terminate_file dumpcore (by simp [outputError])]
      simp [outputError, flushes, message, errorBuf_eq]
  | usageErr msg | cmdLineErr msg => simp [run, usageExit, flushes, message, Output.printed]

theorem Last.run_ending (dumpcore : Option (List UInt8)) (p : Process) (last : Last) :
    (last.run strerror dumpcore p).1 =
      if last.terminates ∧ ∃ s ∈ dumpcore, s ≠ [] then .aborted else .exited exitFailure := by
  cases last with
  | usageErr msg | cmdLineErr msg => rfl
  | errExit msg | err_exit msg | errExitEN errnum msg | fatal msg =>
      simp only [run, terminate, terminates, true_and]
      split_ifs <;> rfl

end Messages

/-- Whatever a program prints and reports before, and however its output is buffered: the messages
and the printed texts are in the file in the order of the program, each message with the error of
the last call that failed. Only `err_exit` leaves something out, the end of what was printed since
the last message. -/
theorem output_in_order (strerror : ℤ → List UInt8) (dumpcore : Option (List UInt8))
    (policy : List UInt8 → ℕ) (errno : ℤ) (calls : List Call) (last : Last) :
    (∃ kept lost, said strerror errno calls = kept ++ lost ∧ lost <:+ sinceMsg [] calls ∧
        (run strerror dumpcore policy errno calls last).2.file =
          kept ++ last.message strerror (lastErrno errno calls) ∧
        (last.flushes → lost = [])) ∧
      (run strerror dumpcore policy errno calls last).1 =
        if last.terminates ∧ ∃ s ∈ dumpcore, s ≠ [] then .aborted else .exited exitFailure := by
  refine ⟨?_, Last.run_ending ..⟩
  obtain ⟨hprinted, herrno, hbuffer⟩ := run_calls strerror policy calls ⟨.empty, errno⟩
  rw [Output.printed_empty, List.nil_append] at hprinted
  rw [run, Last.run_file, herrno]
  cases hflushes : last.flushes with
  | true =>
      refine ⟨said strerror errno calls, [], by simp, List.nil_suffix, ?_, fun _ => rfl⟩
      rw [if_pos rfl, hprinted]
  | false => exact ⟨_, _, hprinted.symm, hbuffer, rfl, nofun⟩

end TlpiExercises.ErrorFunctions
