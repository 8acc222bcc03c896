import TlpiExercises.CText
import TlpiExercises.ReadLine

/-!
# Commands for a shell from a connection

`handleConn` reads a line, puts a zero at the place of its last byte and hands the string to a
shell. The last byte is the newline only if the line ends in one and fits; at the end of file
nothing is read and there is no such place.
-/
namespace TlpiExercises.RemoteExecution
open CText ReadLine

/-- The size of `cmd`. -/
abbrev cmdSize : ℕ := 100

/-- How `handleConn` ends. -/
inductive Ending where
  | shell (command : List UInt8)
  | rejected
  | outOfBounds
  deriving DecidableEq, Repr

/-- `cmd` holds anything at first. -/
def handleConn (stale : List UInt8) (connFd : List Event) : Ending :=
  let r := (readLine cmdSize connFd).1
  let numBytes := r.ret
  if numBytes < 0 then .rejected
  else
    let cmd := r.buffer ++ stale.drop r.buffer.length
    if r.buffer.length ≤ cmdSize ∧ 0 ≤ numBytes - 1 ∧ numBytes - 1 < cmdSize then
      .shell (cString (cmd.set (numBytes - 1).toNat 0))
    else .outOfBounds

/-- The first line of a stream, without its newline. -/
def firstLine (bytes : List UInt8) : List UInt8 := bytes.takeWhile (· ≠ newline)

/-- The shell gets the first line, or there is none or it is too long and the request is
rejected. -/
def Meets (bytes : List UInt8) (ending : Ending) : Prop :=
  ending = .shell (firstLine bytes) ∨
    ((bytes = [] ∨ cmdSize ≤ (firstLine bytes).length) ∧ ending = .rejected)

section Runs

variable {fd : List Event} (stale : List UInt8)

/-- The last byte that was read is cut off. -/
theorem handleConn_of_finished {text : List UInt8} (h : (readLine cmdSize fd).1 = .finished text)
    (hne : text ≠ []) (hlen : text.length < cmdSize) :
    handleConn stale fd = .shell (cString text.dropLast) := by
  obtain ⟨front, c, rfl⟩ := List.eq_nil_or_concat' text |>.resolve_left hne
  rw [List.length_append, List.length_singleton] at hlen
  have hlast : (((front ++ [c]).length : ℤ) - 1).toNat = front.length := by simp
  have hbounds : (front ++ [c] ++ [0]).length ≤ cmdSize ∧
      0 ≤ ((front ++ [c]).length : ℤ) - 1 ∧ ((front ++ [c]).length : ℤ) - 1 < cmdSize := by
    simp only [List.length_append, List.length_singleton, Nat.cast_add, Nat.cast_one, cmdSize] at *
    omega
  have hset : ∀ rest, ((front ++ [c] ++ [0]) ++ rest).set front.length 0 =
      front ++ 0 :: (0 :: rest) := by
    intro rest
    simp
  unfold handleConn
  simp only [h, LineResult.finished]
  rw [if_neg (by omega), if_pos hbounds, hlast, hset, cString_append_zero, List.dropLast_concat]

theorem handleConn_eof (h : Delivers fd []) : handleConn stale fd = .outOfBounds := by
  have hread := readLine_eof (show cmdSize ≠ 0 by decide) h List.not_mem_nil
  unfold handleConn
  rw [hread]
  rfl

/-- A command that ends with the stream loses its last byte. -/
theorem handleConn_unterminated {text : List UInt8} (h : Delivers fd text) (hne : text ≠ [])
    (hnewline : newline ∉ text) :
    handleConn stale fd = .shell (cString (text.take (cmdSize - 1)).dropLast) := by
  have hread := readLine_eof (show cmdSize ≠ 0 by decide) h hnewline
  have htake : text.take (cmdSize - 1) ≠ [] := by simpa using hne
  rw [if_neg htake] at hread
  refine handleConn_of_finished stale (congrArg Prod.fst hread) htake ?_
  rw [List.length_take]
  exact (min_le_left _ _).trans_lt (by decide)

theorem handleConn_terminated {text rest : List UInt8} (h : Delivers fd (text ++ newline :: rest))
    (hnewline : newline ∉ text) :
    handleConn stale fd = .shell (cString (text.take (cmdSize - 2))) := by
  obtain ⟨fd', es, rfl, hfd'⟩ := h.split
  have hread := readLine_terminated (show cmdSize ≠ 0 by decide) hfd' hnewline es
  have hcut : ((text ++ [newline]).take (cmdSize - 1)).dropLast = text.take (cmdSize - 2) := by
    by_cases hlong : cmdSize - 1 ≤ text.length
    · rw [List.take_append_of_le_length hlong, List.dropLast_eq_take, List.length_take,
        min_eq_left hlong, List.take_take]
      rfl
    · have hshort : text.length ≤ cmdSize - 2 := Nat.le_pred_of_lt (not_le.mp hlong)
      have hshort' : (text ++ [newline]).length ≤ cmdSize - 1 := by
        rw [List.length_append]
        exact Nat.succ_le_succ hshort
      rw [List.take_of_length_le hshort', List.dropLast_concat, List.take_of_length_le hshort]
  rw [← hcut]
  refine handleConn_of_finished stale (congrArg Prod.fst hread) (by simp) ?_
  rw [List.length_take]
  exact (min_le_left _ _).trans_lt (by decide)

end Runs

theorem firstLine_terminated {text : List UInt8} (h : newline ∉ text) (rest : List UInt8) :
    firstLine (text ++ newline :: rest) = text :=
  (span_ne h rest).1

theorem firstLine_of_notMem {text : List UInt8} (h : newline ∉ text) : firstLine text = text := by
  refine List.takeWhile_eq_self_iff.mpr fun c hc => ?_
  simpa using ne_of_mem_of_not_mem hc h

theorem length_cString_le (text : List UInt8) : (cString text).length ≤ text.length :=
  (List.takeWhile_sublist _).length_le

/-- The shell gets the first line of what the client sends exactly if that line ends in a newline,
has at most 98 bytes and contains no zero; no other stream is rejected. -/
theorem handleConn_meets_iff {stale bytes : List UInt8} {fd : List Event} (h : Delivers fd bytes) :
    Meets bytes (handleConn stale fd) ↔
      ∃ text rest, bytes = text ++ newline :: rest ∧ newline ∉ text ∧ 0 ∉ text ∧
        text.length ≤ cmdSize - 2 := by
  by_cases hnewline : newline ∈ bytes
  · obtain ⟨text, rest, rfl, htext⟩ := List.eq_append_cons_of_mem hnewline
    rw [handleConn_terminated stale h htext, Meets, firstLine_terminated htext]
    constructor
    · rintro (hshell | ⟨-, hrejected⟩)
      · obtain hstring := Ending.shell.inj hshell
        have hlen := length_cString_le (text.take (cmdSize - 2))
        rw [hstring, List.length_take] at hlen
        have hshort : text.length ≤ cmdSize - 2 := hlen.trans (min_le_left _ _)
        rw [List.take_of_length_le hshort] at hstring
        exact ⟨text, rest, rfl, htext, hstring ▸ zero_notMem_cString text, hshort⟩
      · cases hrejected
    · rintro ⟨text', rest', heq, htext', hzero, hshort⟩
      have hsame := congrArg firstLine heq
      rw [firstLine_terminated htext, firstLine_terminated htext'] at hsame
      subst hsame
      exact .inl (by rw [List.take_of_length_le hshort, cString_eq_self hzero])
  · refine iff_of_false ?_ ?_
    · by_cases hne : bytes = []
      · subst hne
        rw [handleConn_eof stale h, Meets]
        simp
      · rw [handleConn_unterminated stale h hne hnewline, Meets, firstLine_of_notMem hnewline]
        rintro (hshell | ⟨-, hrejected⟩)
        · have hlen := length_cString_le (bytes.take (cmdSize - 1)).dropLast
          rw [Ending.shell.inj hshell, List.length_dropLast, List.length_take] at hlen
          have hpos := List.length_pos_of_ne_nil hne
          omega
        · cases hrejected
    · rintro ⟨text, rest, rfl, -⟩
      simp at hnewline

/-- `ls` and a newline, in a connection that is interrupted once. -/
theorem handleConn_meets_iff_ls :
    Meets [108, 115, 10] (handleConn (List.replicate cmdSize 0)
      [.byte 108, .error .EINTR, .byte 115, .byte 10]) := by
  have hdelivers : Delivers [.byte 108, .error .EINTR, .byte 115, .byte 10] [108, 115, 10] := rfl
  exact (handleConn_meets_iff hdelivers).mpr ⟨[108, 115], [], by decide⟩

/-- `ls` without a newline runs `l`, and no command at all is an access before `cmd`. -/
theorem command_at_eof_cut :
    handleConn (List.replicate cmdSize 0) (ofBytes [108, 115]) = .shell [108] ∧
      firstLine [108, 115] = [108, 115] ∧
      handleConn (List.replicate cmdSize 0) (ofBytes []) = .outOfBounds := by
  decide

end TlpiExercises.RemoteExecution
