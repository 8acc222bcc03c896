import TlpiExercises.AtomicAppend
import TlpiExercises.GetNum

/-!
# Writing a number of bytes through a buffer

`write_bytes` writes the same buffer to the start of a file until it has written a number of bytes,
and the rest of the buffer in the last call. The buffer holds what `malloc` returned, and a file
that exists is not emptied. A call that does not write all its bytes ends the program.
-/
namespace TlpiExercises.WriteBytes
open CText (ascii)
open Exits GetNum

/-- How the calls go: the block that `malloc` returns for a size, and how many bytes a `write` would
write, with `none` for a failure. -/
structure Calls where
  malloc : (size : ℕ) → Option (Vector UInt8 size)
  opens : Bool
  write : ℕ → Option ℕ
  closes : Bool

inductive Exit where
  | usage
  | number (message : GnFail)
  | malloc
  | opens
  | write
  | close
  | success
  deriving DecidableEq, Repr

/-- The end of the program, with the file and the number of calls of `write`. -/
structure Result where
  exit : Exit
  file : Option (List UInt8)
  writes : ℕ
  deriving DecidableEq, Repr

/-- What `getLong` returns with `GN_GT_0`. -/
abbrev Positive := {n : Int64 // 0 < n.toInt}

theorem getLong_pos {arg : List UInt8} {n : Int64} (h : getLong gnGt0 arg = .ok n) :
    0 < n.toInt := by
  simp only [getLong, bind_eq_ok_iff, pure_eq_ok_iff, getNum_eq_ok_iff] at h
  obtain ⟨res, ⟨-, hrange, -, hpos⟩, rfl⟩ := h
  rw [Int64.toInt_ofInt_of_le hrange.1 hrange.2]
  exact hpos rfl

def getPositive (arg : List UInt8) : Except Exit Positive :=
  match h : getLong gnGt0 arg with
  | .ok n => .ok ⟨n, getLong_pos h⟩
  | .error message => .error (.number message)

/-- As a `size_t`. -/
def Positive.size (n : Positive) : ℕ := n.1.toInt.toNat

theorem Positive.size_pos (n : Positive) : 0 < n.size := by
  have h := n.2
  unfold size
  omega

/-- The loop from round `i` on: whether it came to its end, the number of rounds and the file. -/
def writeLoop {bufSize : ℕ} (hsize : 0 < bufSize) (buf : Vector UInt8 bufSize)
    (write : ℕ → Option ℕ) (numBytes i totWritten : ℕ) (content : List UInt8) :
    Bool × ℕ × List UInt8 :=
  if totWritten < numBytes then
    let thisWrite := min bufSize (numBytes - totWritten)
    match write i with
    | none => (false, i + 1, content)
    | some count =>
        let data := (buf.toList.take thisWrite).take count
        let content := AtomicAppend.writeAt content totWritten data
        if data.length ≠ thisWrite then (false, i + 1, content)
        else writeLoop hsize buf write numBytes (i + 1) (totWritten + thisWrite) content
  else (true, i, content)
termination_by numBytes - totWritten

/-- `main`, for the arguments after the name of the program and the file as it was. -/
def main (calls : Calls) (args : List (List UInt8)) (old : Option (List UInt8)) : Result :=
  match args with
  | [name, numArg, sizeArg] =>
      if name = ascii "--help" then ⟨.usage, old, 0⟩
      else
        match getPositive numArg, getPositive sizeArg with
        | .error e, _ => ⟨e, old, 0⟩
        | .ok _, .error e => ⟨e, old, 0⟩
        | .ok numBytes, .ok bufSize =>
            match calls.malloc bufSize.size with
            | none => ⟨.malloc, old, 0⟩
            | some buf =>
                if calls.opens then
                  let r := writeLoop bufSize.size_pos buf calls.write numBytes.size 0 0 (old.getD [])
                  ⟨if !r.1 then .write else if !calls.closes then .close else .success,
                    some r.2.2, r.2.1⟩
                else ⟨.opens, old, 0⟩
  | _ => ⟨.usage, old, 0⟩

/-- The first `k` bytes of the buffer again and again. -/
def cycled (buf : List UInt8) (k : ℕ) : List UInt8 :=
  (List.range k).map fun j => buf.getD (j % buf.length) 0

/-- The number of buffers, with the one that is not full. -/
def rounds (bufSize numBytes : ℕ) : ℕ := (numBytes + bufSize - 1) / bufSize

/-- Round `i` writes all its bytes. -/
def Complete (write : ℕ → Option ℕ) (bufSize numBytes i : ℕ) : Prop :=
  ∃ count, write i = some count ∧ min bufSize (numBytes - i * bufSize) ≤ count

section Loop

@[simp] theorem length_cycled (buf : List UInt8) (k : ℕ) : (cycled buf k).length = k := by
  simp [cycled]

theorem take_eq_map_range {buf : List UInt8} {k : ℕ} (hk : k ≤ buf.length) :
    buf.take k = (List.range k).map fun r => buf.getD r 0 := by
  refine List.ext_getElem (by simp [hk]) fun r hr _ => ?_
  have hlt : r < buf.length := by
    rw [List.length_take] at hr
    omega
  simp [hlt]

/-- Behind whole copies of the buffer comes its start. -/
theorem cycled_append (buf : List UInt8) (i : ℕ) {k : ℕ} (hk : k ≤ buf.length) :
    cycled buf (i * buf.length) ++ buf.take k = cycled buf (i * buf.length + k) := by
  rw [cycled, cycled, List.range_add, List.map_append, List.map_map, take_eq_map_range hk]
  congr 1
  refine List.map_congr_left fun r hr => ?_
  have hlt : r < buf.length := (List.mem_range.mp hr).trans_le hk
  rw [Function.comp_apply, Nat.mul_add_mod_self_right, Nat.mod_eq_of_lt hlt]

/-- A write behind what is written already. -/
theorem writeAt_front (front data old : List UInt8) :
    AtomicAppend.writeAt (front ++ old.drop front.length) front.length data =
      front ++ data ++ old.drop (front ++ data).length := by
  rw [AtomicAppend.writeAt, List.take_left]
  simp

variable {bufSize : ℕ} (hsize : 0 < bufSize) (buf : Vector UInt8 bufSize) (write : ℕ → Option ℕ)

theorem lt_rounds_iff {numBytes i : ℕ} (hsize : 0 < bufSize) :
    i < rounds bufSize numBytes ↔ i * bufSize < numBytes := by
  rw [rounds, ← Nat.add_one_le_iff, Nat.le_div_iff_mul_le hsize, Nat.add_one_mul]
  omega

/-- The bytes of round `i`, of which `count` are written. -/
theorem writeAt_round (old : List UInt8) (i : ℕ) {thisWrite : ℕ} (hle : thisWrite ≤ bufSize)
    (count : ℕ) :
    AtomicAppend.writeAt (cycled buf.toList (i * bufSize) ++ old.drop (i * bufSize)) (i * bufSize)
        ((buf.toList.take thisWrite).take count) =
      cycled buf.toList (i * bufSize + min count thisWrite) ++
        old.drop (i * bufSize + min count thisWrite) := by
  have hlen : buf.toList.length = bufSize := by simp
  have hwrite := writeAt_front (cycled buf.toList (i * bufSize))
    (buf.toList.take (min count thisWrite)) old
  have happend := cycled_append buf.toList i (k := min count thisWrite) (by omega)
  rw [hlen] at happend
  rwa [happend, length_cycled, length_cycled, ← List.take_take] at hwrite

/-- The loop after `i` whole buffers. It writes a part of what is left, and all of it exactly if
every round is complete. -/
theorem writeLoop_spec (numBytes : ℕ) (old : List UInt8) (i tot : ℕ)
    (htot : tot = min (i * bufSize) numBytes) (hi : i ≤ rounds bufSize numBytes) :
    ∃ done n k, writeLoop hsize buf write numBytes i tot (cycled buf.toList tot ++ old.drop tot) =
        (done, n, cycled buf.toList k ++ old.drop k) ∧ k ≤ numBytes ∧
      (done → k = numBytes ∧ n = rounds bufSize numBytes) ∧
      (done ↔ ∀ r, i ≤ r → r < rounds bufSize numBytes → Complete write bufSize numBytes r) := by
  induction hleft : numBytes - tot using Nat.strongRecOn generalizing i tot with
  | ind left ih =>
      rw [writeLoop]
      by_cases hlt : tot < numBytes
      · have hround : i < rounds bufSize numBytes := (lt_rounds_iff hsize).mpr (by omega)
        obtain rfl : tot = i * bufSize := by omega
        have hstop : ¬ Complete write bufSize numBytes i →
            ¬ ∀ r, i ≤ r → r < rounds bufSize numBytes → Complete write bufSize numBytes r :=
          fun hnot hall => hnot (hall i le_rfl hround)
        simp only [if_pos hlt]
        generalize hthis : min bufSize (numBytes - i * bufSize) = thisWrite
        have hpos : 0 < thisWrite := by omega
        have hle : thisWrite ≤ bufSize := by omega
        have hbound : i * bufSize + thisWrite ≤ numBytes := by omega
        have hnext : i * bufSize + thisWrite = min ((i + 1) * bufSize) numBytes := by
          rw [Nat.add_one_mul]
          omega
        have hless : numBytes - (i * bufSize + thisWrite) < left := by omega
        have hcomplete : Complete write bufSize numBytes i ↔
            ∃ count, write i = some count ∧ thisWrite ≤ count := by
          rw [Complete, hthis]
        cases hwrite : write i with
        | none =>
            have hnot : ¬ Complete write bufSize numBytes i := by simp [hcomplete, hwrite]
            exact ⟨false, i + 1, i * bufSize, rfl, hlt.le, nofun, iff_of_false nofun (hstop hnot)⟩
        | some count =>
            have hlen : ((buf.toList.take thisWrite).take count).length = min count thisWrite := by
              rw [List.length_take, List.length_take, Vector.length_toList, min_eq_left hle]
            simp only [hlen, writeAt_round buf old i hle count]
            by_cases hfull : min count thisWrite = thisWrite
            · rw [if_neg (not_not.mpr hfull), hfull]
              have hdone : Complete write bufSize numBytes i :=
                hcomplete.mpr ⟨count, hwrite, min_eq_right_iff.mp hfull⟩
              obtain ⟨done, n, k, hloop, hk, hend, hall⟩ := ih _ hless (i + 1) _ hnext hround rfl
              refine ⟨done, n, k, hloop, hk, hend, hall.trans ⟨fun h r hr => ?_, fun h r hr => ?_⟩⟩
              · rcases eq_or_lt_of_le hr with rfl | hr
                · exact fun _ => hdone
                · exact h r hr
              · exact h r (Nat.le_of_succ_le hr)
            · rw [if_pos hfull]
              have hnot : ¬ Complete write bufSize numBytes i := by
                rw [hcomplete, hwrite]
                rintro ⟨count', hcount, hle'⟩
                obtain rfl := Option.some.inj hcount
                exact hfull (min_eq_right hle')
              have hk : i * bufSize + min count thisWrite ≤ numBytes :=
                (Nat.add_le_add_left (min_le_right ..) _).trans hbound
              exact ⟨false, i + 1, _, rfl, hk, nofun, iff_of_false nofun (hstop hnot)⟩
      · rw [if_neg hlt]
        have hend : ¬ i < rounds bufSize numBytes := by
          rw [lt_rounds_iff hsize]
          omega
        refine ⟨true, i, tot, rfl, by omega, fun _ => ⟨by omega, by omega⟩, iff_of_true rfl ?_⟩
        intro r hr hlt'
        omega

end Loop

/-- Whatever the calls do, the file has a part of the bytes at its start and is unchanged behind
them. The program succeeds exactly if every `write` is complete and the file can be closed, and
then all bytes are written, with as few calls as the buffer allows. -/
theorem main_writes (calls : Calls) {name numArg sizeArg : List UInt8} (old : Option (List UInt8))
    {numBytes bufSize : Positive} {buf : Vector UInt8 bufSize.size} (hname : name ≠ ascii "--help")
    (hnum : getPositive numArg = .ok numBytes) (hsize : getPositive sizeArg = .ok bufSize)
    (hmalloc : calls.malloc bufSize.size = some buf) (hopens : calls.opens) :
    ∃ exit n k, main calls [name, numArg, sizeArg] old =
        ⟨exit, some (cycled buf.toList k ++ (old.getD []).drop k), n⟩ ∧ k ≤ numBytes.size ∧
      (exit = .success ↔ calls.closes ∧
        ∀ r < rounds bufSize.size numBytes.size,
          Complete calls.write bufSize.size numBytes.size r) ∧
      (exit = .success → k = numBytes.size ∧ n = rounds bufSize.size numBytes.size) := by
  obtain ⟨done, n, k, hloop, hk, hend, hall⟩ := writeLoop_spec bufSize.size_pos buf calls.write
    numBytes.size (old.getD []) 0 0 (by simp) (Nat.zero_le _)
  have hmain : main calls [name, numArg, sizeArg] old =
      ⟨if !done then .write else if !calls.closes then .close else .success,
        some (cycled buf.toList k ++ (old.getD []).drop k), n⟩ := by
    simp only [cycled, List.range_zero, List.map_nil, List.nil_append, List.drop_zero] at hloop
    simp only [main, if_neg hname, hnum, hsize, hmalloc, if_pos hopens, hloop]
    rfl
  refine ⟨_, n, k, hmain, hk, ?_, ?_⟩
  · have hdone : done ↔ ∀ r < rounds bufSize.size numBytes.size,
        Complete calls.write bufSize.size numBytes.size r := by
      simpa using hall
    rw [← hdone]
    cases done <;> cases calls.closes <;> simp
  · intro hsuccess
    refine hend ?_
    cases done
    · simp at hsuccess
    · rfl

/-- Every call writes up to two bytes. -/
def twoBytes : Calls := ⟨fun size => some (Vector.replicate size 97), true, fun _ => some 2, true⟩

/-- Five bytes in a file of seven, with a buffer of two. -/
theorem main_writes_five :
    main twoBytes [[102], [53], [50]] (some (List.replicate 7 98)) =
      ⟨.success, some [97, 97, 97, 97, 97, 98, 98], 3⟩ := by
  have hname : ([102] : List UInt8) ≠ ascii "--help" := by decide
  have hnum : getPositive [53] = .ok ⟨5, by decide⟩ := rfl
  have hsize : getPositive [50] = .ok ⟨2, by decide⟩ := rfl
  obtain ⟨exit, n, k, hmain, -, hsuccess, hall⟩ :=
    main_writes twoBytes (some (List.replicate 7 98)) hname hnum hsize rfl rfl
  obtain rfl := hsuccess.mpr ⟨rfl, fun r _ => ⟨2, rfl, min_le_left ..⟩⟩
  obtain ⟨rfl, rfl⟩ := hall rfl
  rw [hmain]
  rfl

end TlpiExercises.WriteBytes
