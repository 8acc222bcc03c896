import Mathlib.Data.List.DropRight
import TlpiExercises.CText

/-!
# The last name of a path, in a buffer of each thread

`t_safe_basename` collects the bytes behind the last slash from the end on, and then reverses
them in place by exclusive-or exchanges. Each thread has a buffer of 1000 bytes, which is
allocated at the first call and holds anything then; an access outside of it has no result.
The calls of the thread library and `malloc` succeed.
-/
namespace TlpiExercises.DirnameBasename
open CText

/-- `'/'`. -/
abbrev slash : UInt8 := 47

/-- The size of the buffers. -/
abbrev bufSize : ℕ := 1000

structure Buffer where
  bytes : List UInt8
  size : bytes.length = bufSize

namespace Buffer

def set (buf : Buffer) (i : ℕ) (x : UInt8) : Buffer :=
  ⟨buf.bytes.set i x, by rw [List.length_set, buf.size]⟩

/-- `buf[i] = x`. -/
def store (buf : Buffer) (i : ℕ) (x : UInt8) : Option Buffer :=
  if i < bufSize then some (buf.set i x) else none

/-- `buf[i] ^= v`, with the value of the expression. -/
def xorAssign (buf : Buffer) (i : ℕ) (v : UInt8) : Option (Buffer × UInt8) := do
  let x ← buf.bytes[i]?
  return (buf.set i (x ^^^ v), x ^^^ v)

/-- `buf[i] ^= buf[j] ^= buf[i] ^= buf[j]`, from right to left. -/
def exchange (buf : Buffer) (i j : ℕ) : Option Buffer := do
  let v ← buf.bytes[j]?
  let (buf, v) ← buf.xorAssign i v
  let (buf, v) ← buf.xorAssign j v
  let (buf, _) ← buf.xorAssign i v
  return buf

end Buffer

/-- The first loop of `t_safe_basename`, for the number of bytes of the path that are left: `sz`
at its end and the buffer. -/
def collect (path : List UInt8) : ℕ → ℕ → Buffer → Option (ℕ × Buffer)
  | 0, sz, buf => some (sz, buf)
  | i + 1, sz, buf => do
      let c ← path[i]?
      if c = slash then return (sz, buf)
      else
        let buf ← buf.store sz c
        collect path i (sz + 1) buf

/-- The second loop of `t_safe_basename`, for at most so many rounds. -/
def reverseLoop (sz : ℕ) : ℕ → ℕ → Buffer → Option Buffer
  | 0, _, _ => none
  | fuel + 1, i, buf =>
      if i < sz - i then do
        let buf ← buf.exchange i (sz - i - 1)
        reverseLoop sz fuel (i + 1) buf
      else some buf

/-- The buffer of the thread at the end. Before, the thread has a buffer, or none and `malloc`
returns this one. -/
def tSafeBasename (specific : Option Buffer) (malloc : Buffer) (path : List UInt8) :
    Option Buffer := do
  let (sz, buf) ← collect path (cString path).length 0 (specific.getD malloc)
  let buf ← buf.store sz 0
  reverseLoop sz (sz + 1) 0 buf

/-- `strcpy(buf, text)`. -/
def Buffer.strcpy (buf : Buffer) (text : List UInt8) : Option Buffer :=
  if h : text.length < bufSize then
    some ⟨text ++ 0 :: buf.bytes.drop (text.length + 1), by simp [buf.size]; omega⟩
  else none

/-- The loop of `t_safe_dirname`, for the number of bytes that are left. -/
def cutLoop : ℕ → Buffer → Option Buffer
  | 0, buf => some buf
  | i + 1, buf => do
      let c ← buf.bytes[i]?
      if c = slash then buf.store i 0 else cutLoop i buf

def tSafeDirname (specific : Option Buffer) (malloc : Buffer) (path : List UInt8) :
    Option Buffer := do
  let buf ← (specific.getD malloc).strcpy (cString path)
  cutLoop (cString buf.bytes).length buf

/-- What stands behind the last slash of a path, or the whole path. -/
def baseName (path : List UInt8) : List UInt8 := path.rtakeWhile (· ≠ slash)

theorem baseName_of_notMem {path : List UInt8} (h : slash ∉ path) : baseName path = path := by
  rw [baseName, List.rtakeWhile_eq_self_iff]
  intro c hc
  simpa using ne_of_mem_of_not_mem hc h

theorem baseName_append {name : List UInt8} (h : slash ∉ name) (dir : List UInt8) :
    baseName (dir ++ slash :: name) = name := by
  induction name using List.reverseRecOn with
  | nil => exact List.rtakeWhile_concat_neg _ _ _ (by simp)
  | append_singleton name c ih =>
      obtain ⟨hname, hc⟩ : slash ∉ name ∧ slash ≠ c := by simpa using h
      rw [← List.cons_append, ← List.append_assoc, baseName,
        List.rtakeWhile_concat_pos _ _ _ (by simpa using hc.symm)]
      exact congrArg (· ++ [c]) (ih hname)

section Exchange

variable {buf : Buffer} {i j : ℕ} {x y : UInt8}

theorem xorAssign_eq (hx : buf.bytes[i]? = some x) (v : UInt8) :
    buf.xorAssign i v = some (buf.set i (x ^^^ v), x ^^^ v) := by
  simp [Buffer.xorAssign, hx]

theorem getElem?_set_self (hx : buf.bytes[i]? = some x) (v : UInt8) :
    (buf.set i v).bytes[i]? = some v := by
  obtain ⟨hi, -⟩ := List.getElem?_eq_some_iff.mp hx
  exact List.getElem?_set_self hi

theorem getElem?_set_of_ne (buf : Buffer) (h : i ≠ j) (v : UInt8) :
    (buf.set i v).bytes[j]? = buf.bytes[j]? :=
  List.getElem?_set_ne h

/-- Two elements are exchanged. -/
theorem exchange_eq (hij : i ≠ j) (hx : buf.bytes[i]? = some x) (hy : buf.bytes[j]? = some y) :
    ∃ buf', buf.exchange i j = some buf' ∧ buf'.bytes = (buf.bytes.set i y).set j x := by
  have hx' : y ^^^ (x ^^^ y) = x := by
    rw [UInt8.xor_comm x y, ← UInt8.xor_assoc, UInt8.xor_self, UInt8.zero_xor]
  have hy' : x ^^^ y ^^^ x = y := by
    rw [UInt8.xor_comm x y, UInt8.xor_assoc, UInt8.xor_self, UInt8.xor_zero]
  have hy₁ := (getElem?_set_of_ne buf hij (x ^^^ y)).trans hy
  have hx₁ := getElem?_set_self hx (x ^^^ y)
  have hx₂ := (getElem?_set_of_ne (buf.set i (x ^^^ y)) hij.symm x).trans hx₁
  refine ⟨((buf.set i (x ^^^ y)).set j x).set i y, ?_, ?_⟩
  · unfold Buffer.exchange
    rw [hy]
    simp only [Option.bind_eq_bind, Option.bind_some, xorAssign_eq hx, xorAssign_eq hy₁, hx',
      xorAssign_eq hx₂, hy']
    rfl
  · show ((buf.bytes.set i (x ^^^ y)).set j x).set i y = _
    rw [List.set_comm _ _ hij.symm, List.set_set]

/-- An element that is exchanged with itself becomes zero. -/
theorem exchange_self (hx : buf.bytes[i]? = some x) :
    ∃ buf', buf.exchange i i = some buf' ∧ buf'.bytes = buf.bytes.set i 0 := by
  have hzero : ∀ z : UInt8, z ^^^ z = 0 := fun z => UInt8.xor_self
  have hx₁ := getElem?_set_self hx 0
  have hx₂ := getElem?_set_self hx₁ 0
  refine ⟨((buf.set i 0).set i 0).set i 0, ?_, ?_⟩
  · unfold Buffer.exchange
    rw [hx]
    simp only [Option.bind_eq_bind, Option.bind_some, xorAssign_eq hx, xorAssign_eq hx₁,
      xorAssign_eq hx₂, hzero]
    rfl
  · show ((buf.bytes.set i 0).set i 0).set i 0 = _
    rw [List.set_set, List.set_set]

end Exchange

section Reversing

/-- The bytes in reverse order, with a zero for the one in the middle if there is one. -/
def exchanged (bytes : List UInt8) : List UInt8 :=
  if Even bytes.length then bytes.reverse else bytes.reverse.set (bytes.length / 2) 0

theorem exchanged_cons_append (x : UInt8) (mid : List UInt8) (y : UInt8) :
    exchanged (x :: (mid ++ [y])) = y :: (exchanged mid ++ [x]) := by
  have hlen : (x :: (mid ++ [y])).length = mid.length + 2 := by simp
  have heven : Even (mid.length + 2) ↔ Even mid.length := by
    rw [Nat.even_add]
    exact iff_true_right (by decide)
  have hrev : (x :: (mid ++ [y])).reverse = y :: (mid.reverse ++ [x]) := by simp
  unfold exchanged
  rw [hlen, hrev]
  by_cases h : Even mid.length
  · rw [if_pos (heven.mpr h), if_pos h]
  · have hpos : mid.length / 2 < mid.reverse.length := by
      rw [List.length_reverse]
      have hne : mid.length ≠ 0 := fun hzero => h (hzero ▸ Even.zero)
      omega
    rw [if_neg (mt heven.mp h), if_neg h, Nat.add_div_right _ (by decide), List.set_cons_succ,
      List.set_append_left _ _ hpos]

theorem reverseLoop_of_le {sz i : ℕ} (h : sz ≤ 2 * i) (fuel : ℕ) (buf : Buffer) :
    reverseLoop sz (fuel + 1) i buf = some buf :=
  if_neg (by omega)

theorem reverseLoop_of_lt {sz i j : ℕ} (h : 2 * i < sz) (hj : sz - i - 1 = j) {buf buf' : Buffer}
    (hrun : buf.exchange i j = some buf') (fuel : ℕ) :
    reverseLoop sz (fuel + 1) i buf = reverseLoop sz fuel (i + 1) buf' := by
  rw [reverseLoop, if_pos (by omega), hj, hrun]
  rfl

/-- The loop goes from both ends of the bytes to their middle. -/
theorem reverseLoop_eq (bytes : List UInt8) {buf : Buffer} {start rest : List UInt8} {sz fuel : ℕ}
    (hbuf : buf.bytes = start ++ bytes ++ rest) (hsz : sz = 2 * start.length + bytes.length)
    (hfuel : bytes.length < fuel) :
    ∃ buf', reverseLoop sz fuel start.length buf = some buf' ∧
      buf'.bytes = start ++ exchanged bytes ++ rest := by
  obtain ⟨fuel, rfl⟩ := Nat.exists_eq_succ_of_ne_zero (by omega : fuel ≠ 0)
  induction bytes using List.bidirectionalRec generalizing buf start rest fuel with
  | nil =>
      rw [List.length_nil] at hsz
      exact ⟨buf, reverseLoop_of_le (by omega) fuel buf, hbuf⟩
  | singleton x =>
      rw [List.length_singleton] at hsz hfuel
      obtain ⟨fuel, rfl⟩ := Nat.exists_eq_succ_of_ne_zero (by omega : fuel ≠ 0)
      have hx : buf.bytes[start.length]? = some x := by simp [hbuf]
      obtain ⟨buf', hrun, hbuf'⟩ := exchange_self hx
      refine ⟨buf', ?_, ?_⟩
      · rw [reverseLoop_of_lt (by omega) (by omega) hrun, reverseLoop_of_le (by omega)]
      · simp [hbuf', hbuf, exchanged]
  | cons_append x mid y ih =>
      have hlen : (x :: (mid ++ [y])).length = mid.length + 2 := by simp
      rw [hlen] at hsz hfuel
      obtain ⟨fuel, rfl⟩ := Nat.exists_eq_succ_of_ne_zero (by omega : fuel ≠ 0)
      have hx : buf.bytes[start.length]? = some x := by simp [hbuf]
      have hy : buf.bytes[start.length + 1 + mid.length]? = some y := by
        simp [hbuf, Nat.add_assoc, Nat.add_comm 1]
      obtain ⟨buf₁, hrun₁, hbuf₁⟩ := exchange_eq (by omega) hx hy
      have hshape : buf₁.bytes = (start ++ [y]) ++ mid ++ (x :: rest) := by
        simp [hbuf₁, hbuf, Nat.add_assoc, Nat.add_comm 1]
      obtain ⟨buf', hrun, hbuf'⟩ := ih hshape (by simp; omega) fuel (by omega)
      refine ⟨buf', ?_, ?_⟩
      · rw [reverseLoop_of_lt (by omega) (by omega) hrun₁]
        simpa using hrun
      · rw [hbuf', exchanged_cons_append]
        simp

end Reversing

section Collecting

/-- Behind some bytes that do not fill the buffer, there is room for one more. -/
theorem store_behind {buf : Buffer} {bytes rest : List UInt8} (hbuf : buf.bytes = bytes ++ rest)
    (hlen : bytes.length < bufSize) (x : UInt8) :
    ∃ buf' rest', buf.store bytes.length x = some buf' ∧ buf'.bytes = bytes ++ x :: rest' := by
  have hsize := buf.size
  rw [hbuf, List.length_append] at hsize
  obtain ⟨c, rest, rfl⟩ := List.exists_cons_of_ne_nil (List.ne_nil_of_length_pos
    (by omega : 0 < rest.length))
  refine ⟨buf.set bytes.length x, rest, if_pos hlen, ?_⟩
  simp [Buffer.set, hbuf]

/-- The loop stores the bytes behind the last slash in reverse order. -/
theorem collect_eq {path tail : List UInt8} (front : List UInt8) {found : List UInt8} {buf : Buffer}
    {rest : List UInt8} (hpath : path = front ++ found ++ tail)
    (hbuf : buf.bytes = found.reverse ++ rest) (hlen : (front ++ found).length < bufSize) :
    ∃ buf' rest', collect path front.length found.length buf =
        some ((baseName front ++ found).length, buf') ∧
      buf'.bytes = (baseName front ++ found).reverse ++ rest' := by
  induction front using List.reverseRecOn generalizing found buf rest with
  | nil => exact ⟨buf, rest, rfl, hbuf⟩
  | append_singleton front c ih =>
      have hc : path[front.length]? = some c := by simp [hpath]
      rw [List.length_append, List.length_singleton, collect, hc]
      by_cases hslash : c = slash
      · have hname : baseName (front ++ [c]) = [] :=
          List.rtakeWhile_concat_neg _ _ _ (by simp [hslash])
        rw [hname]
        simp only [Option.bind_eq_bind, Option.bind_some, if_pos hslash]
        exact ⟨buf, rest, rfl, hbuf⟩
      · have hname : baseName (front ++ [c]) ++ found = baseName front ++ (c :: found) := by
          rw [baseName, List.rtakeWhile_concat_pos _ _ _ (by simpa using hslash), List.append_assoc]
          rfl
        obtain ⟨buf₁, rest₁, hstore, hbuf₁⟩ := store_behind hbuf (by simp at hlen ⊢; omega) c
        rw [List.length_reverse] at hstore
        simp only [Option.bind_eq_bind, Option.bind_some, if_neg hslash, hstore, hname]
        have hpath₁ : path = front ++ (c :: found) ++ tail := by simp [hpath]
        have hbuf₁' : buf₁.bytes = (c :: found).reverse ++ rest₁ := by simp [hbuf₁]
        exact ih hpath₁ hbuf₁' (by simpa using hlen)

end Collecting

/-- A zero in the middle ends the string there. -/
theorem cString_exchanged {name : List UInt8} (h : 0 ∉ name) (rest : List UInt8) :
    cString (exchanged name.reverse ++ 0 :: rest) =
      if Even name.length then name else name.take (name.length / 2) := by
  unfold exchanged
  rw [List.length_reverse, List.reverse_reverse]
  by_cases heven : Even name.length
  · rw [if_pos heven, if_pos heven, cString_append_zero, cString_eq_self h]
  · have hpos : name.length / 2 < name.length := by
      have hne : name.length ≠ 0 := fun hzero => heven (hzero ▸ Even.zero)
      omega
    have hfront : 0 ∉ name.take (name.length / 2) := fun hmem => h (List.mem_of_mem_take hmem)
    rw [if_neg heven, if_neg heven, List.set_eq_take_append_cons_drop, if_pos hpos,
      List.append_assoc, List.cons_append, cString_append_zero, cString_eq_self hfront]

theorem baseName_suffix (path : List UInt8) : baseName path <:+ path := List.rtakeWhile_suffix ..

/-- The string that `t_safe_basename` returns is the last name of the path if the length of that
name is even, and the first half of it otherwise. -/
theorem tSafeBasename_eq (specific : Option Buffer) (malloc : Buffer) {path name : List UInt8}
    (hlen : (cString path).length < bufSize) (hname : baseName (cString path) = name) :
    ∃ buf, tSafeBasename specific malloc path = some buf ∧
      cString buf.bytes = if Even name.length then name else name.take (name.length / 2) := by
  have hsuffix : name <:+ cString path := hname ▸ baseName_suffix _
  have hzero : 0 ∉ name := fun hmem => zero_notMem_cString path (hsuffix.subset hmem)
  have hpath : path = cString path ++ [] ++ path.dropWhile (· ≠ 0) := by
    rw [List.append_nil]
    exact List.takeWhile_append_dropWhile.symm
  have hbuf : (specific.getD malloc).bytes =
      ([] : List UInt8).reverse ++ (specific.getD malloc).bytes := rfl
  obtain ⟨buf₁, rest₁, hcollect, hbuf₁⟩ := collect_eq (cString path) hpath hbuf (by simpa using hlen)
  rw [List.append_nil, hname, List.length_nil] at hcollect
  rw [List.append_nil, hname] at hbuf₁
  obtain ⟨buf₂, rest₂, hstore, hbuf₂⟩ := store_behind hbuf₁
    (by rw [List.length_reverse]; exact hsuffix.length_le.trans_lt hlen) 0
  rw [List.length_reverse] at hstore
  have hsz : name.length = 2 * ([] : List UInt8).length + name.reverse.length := by simp
  have hfuel : name.reverse.length < name.length + 1 := by simp
  obtain ⟨buf₃, hreverse, hbuf₃⟩ := reverseLoop_eq name.reverse hbuf₂ hsz hfuel
  refine ⟨buf₃, ?_, by rw [hbuf₃, List.nil_append, cString_exchanged hzero]⟩
  unfold tSafeBasename
  rw [hcollect]
  simp only [Option.bind_eq_bind, Option.bind_some, hstore]
  exact hreverse

/-- `t_safe_basename` returns the last name of the path exactly if its length is even: the byte in
the middle of a name of odd length is exchanged with itself. -/
theorem tSafeBasename_baseName_iff (specific : Option Buffer) (malloc : Buffer) {path : List UInt8}
    (hlen : (cString path).length < bufSize) :
    (∃ buf, tSafeBasename specific malloc path = some buf ∧
        cString buf.bytes = baseName (cString path)) ↔ Even (baseName (cString path)).length := by
  obtain ⟨buf, hrun, hbuf⟩ := tSafeBasename_eq specific malloc hlen rfl
  constructor
  · rintro ⟨buf', hrun', hbuf'⟩
    obtain rfl := Option.some.inj (hrun.symm.trans hrun')
    by_contra hodd
    rw [if_neg hodd, hbuf'] at hbuf
    have hlength := congrArg List.length hbuf
    have hne : (baseName (cString path)).length ≠ 0 := fun hzero => hodd (hzero ▸ Even.zero)
    rw [List.length_take] at hlength
    omega
  · intro heven
    rw [if_pos heven] at hbuf
    exact ⟨buf, hrun, hbuf⟩

/-- A new buffer. -/
def zeros : Buffer := ⟨List.replicate bufSize 0, List.length_replicate⟩

/-- The path `a/10/c/10`. -/
theorem tSafeBasename_baseName_iff_ten :
    ∃ buf, tSafeBasename none zeros [97, 47, 49, 48, 47, 99, 47, 49, 48, 0] = some buf ∧
      cString buf.bytes = [49, 48] :=
  (tSafeBasename_baseName_iff none zeros (by decide)).mpr (by decide)

/-- The name at the end of `a/7/c/7` becomes empty. -/
theorem name_of_one_byte_lost :
    baseName (cString [97, 47, 55, 47, 99, 47, 55, 0]) = [55] ∧
      ∃ buf, tSafeBasename none zeros [97, 47, 55, 47, 99, 47, 55, 0] = some buf ∧
        cString buf.bytes = [] := by
  refine ⟨by decide, ?_⟩
  exact tSafeBasename_eq none zeros (by decide) (show baseName _ = [55] by decide)

section Dirname

variable {path : List UInt8}

theorem strcpy_eq (buf : Buffer) {text : List UInt8} (hlen : text.length < bufSize)
    (hzero : 0 ∉ text) :
    ∃ buf' rest, buf.strcpy text = some buf' ∧ buf'.bytes = text ++ 0 :: rest ∧
      cString buf'.bytes = text :=
  ⟨_, _, dif_pos hlen, rfl, (cString_append_zero _ _).trans (cString_eq_self hzero)⟩

/-- The loop passes over bytes that are no slashes. -/
theorem cutLoop_append {buf : Buffer} (front : List UInt8) {name rest : List UInt8}
    (hname : slash ∉ name) (hbuf : buf.bytes = front ++ name ++ rest) :
    cutLoop (front ++ name).length buf = cutLoop front.length buf := by
  induction name using List.reverseRecOn generalizing rest with
  | nil => rw [List.append_nil]
  | append_singleton name c ih =>
      obtain ⟨hname, hc⟩ : slash ∉ name ∧ slash ≠ c := by simpa using hname
      have hget : buf.bytes[(front ++ name).length]? = some c := by simp [hbuf]
      rw [← List.append_assoc, List.length_append, List.length_singleton, cutLoop, hget]
      simp only [Option.bind_eq_bind, Option.bind_some, if_neg hc.symm]
      have hbuf' : buf.bytes = front ++ name ++ (c :: rest) := by simp [hbuf]
      exact ih hname hbuf'

/-- `t_safe_dirname` returns what stands before the last slash. -/
theorem tSafeDirname_append (specific : Option Buffer) (malloc : Buffer) {dir name : List UInt8}
    (hlen : (cString path).length < bufSize) (hpath : cString path = dir ++ slash :: name)
    (hname : slash ∉ name) :
    ∃ buf, tSafeDirname specific malloc path = some buf ∧ cString buf.bytes = dir := by
  have hzero := zero_notMem_cString path
  obtain ⟨buf₁, rest, hcopy, hbytes, hstring⟩ := strcpy_eq (specific.getD malloc) hlen hzero
  rw [hpath] at hbytes hlen hzero
  have hdir : (dir ++ [slash]).length = dir.length + 1 := by simp
  have hsplit : buf₁.bytes = (dir ++ [slash]) ++ name ++ (0 :: rest) := by simp [hbytes]
  have hpass := cutLoop_append (dir ++ [slash]) hname hsplit
  obtain ⟨buf₂, rest₂, hstore, hbuf₂⟩ := store_behind
    (show buf₁.bytes = dir ++ slash :: (name ++ 0 :: rest) by simp [hbytes])
    (by simp at hlen; omega) 0
  have hget : buf₁.bytes[dir.length]? = some slash := by simp [hbytes]
  refine ⟨buf₂, ?_, ?_⟩
  · unfold tSafeDirname
    rw [hcopy, Option.bind_eq_bind, Option.bind_some, hstring, hpath, ← List.singleton_append,
      ← List.append_assoc, hpass, hdir, cutLoop, hget]
    simpa using hstore
  · rw [hbuf₂, cString_append_zero, cString_eq_self fun hmem => hzero (List.mem_append_left _ hmem)]

theorem tSafeDirname_of_notMem (specific : Option Buffer) (malloc : Buffer)
    (hlen : (cString path).length < bufSize) (hslash : slash ∉ cString path) :
    ∃ buf, tSafeDirname specific malloc path = some buf ∧ cString buf.bytes = cString path := by
  obtain ⟨buf, rest, hcopy, hbytes, hstring⟩ := strcpy_eq (specific.getD malloc) hlen
    (zero_notMem_cString path)
  refine ⟨buf, ?_, hstring⟩
  unfold tSafeDirname
  rw [hcopy, Option.bind_eq_bind, Option.bind_some, hstring]
  exact cutLoop_append [] hslash hbytes

end Dirname

end TlpiExercises.DirnameBasename
