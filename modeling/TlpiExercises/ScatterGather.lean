import Mathlib.Tactic

/-!
# `readv` and `writev` by one call of `read` and `write`

Both functions go through an internal buffer: `customWritev` copies the buffers of the caller
one after the other into it and writes it out, `customReadv` reads into it and copies it out as
far as bytes were read. Memory is a function of the address; the internal buffer is new, holds
anything at first, and a copy that would leave it has no result. `malloc` succeeds.
-/
namespace TlpiExercises.ScatterGather

abbrev Memory := ℕ → UInt8

/-- `struct iovec`. -/
structure Iovec where
  base : ℕ
  len : UInt64

namespace Memory

/-- The `n` bytes from an address on. -/
def load (mem : Memory) (base n : ℕ) : List UInt8 := (List.range n).map fun i => mem (base + i)

/-- Memory with these bytes from an address on. -/
def store (mem : Memory) (base : ℕ) (bytes : List UInt8) : Memory := fun a =>
  if base ≤ a then (bytes[a - base]?).getD (mem a) else mem a

variable (mem : Memory) {base n a : ℕ} {bytes : List UInt8}

@[simp] theorem length_load : (mem.load base n).length = n := by
  simp [load]

theorem load_congr {mem' : Memory} (h : ∀ a, base ≤ a → a < base + n → mem' a = mem a) :
    mem'.load base n = mem.load base n := by
  apply List.map_congr_left
  intro i hi
  exact h _ (by omega) (by rw [List.mem_range] at hi; omega)

theorem store_outside (h : ¬ (base ≤ a ∧ a < base + bytes.length)) :
    mem.store base bytes a = mem a := by
  unfold store
  split
  next hle => rw [List.getElem?_eq_none (by omega), Option.getD_none]
  next => rfl

/-- What is loaded where bytes were stored before: these and the rest of the old ones. -/
theorem load_store (h : bytes.length ≤ n) :
    (mem.store base bytes).load base n = bytes ++ (mem.load base n).drop bytes.length := by
  apply List.ext_getElem?
  intro i
  by_cases hi : i < bytes.length
  · rw [List.getElem?_append_left hi]
    simp [load, store, hi, show i < n by omega]
  · rw [List.getElem?_append_right (by omega), List.getElem?_drop,
      Nat.add_sub_cancel' (by omega : bytes.length ≤ i)]
    by_cases hn : i < n
    · simp [load, store, hn, hi]
    · simp [load, hn]

end Memory

/-- The macro of `tlpi_hdr.h`. -/
def cmin (m n : UInt64) : UInt64 := if m < n then m else n

/-- `malloc(n)`: a new buffer with what was there. -/
def malloc (stale : Memory) (n : UInt64) : List UInt8 := stale.load 0 n.toNat

/-- `memcpy(&buffer[sz], bytes)`. -/
def memcpyTo (buffer : List UInt8) (sz : UInt64) (bytes : List UInt8) : Option (List UInt8) :=
  if sz.toNat + bytes.length ≤ buffer.length then
    some (buffer.take sz.toNat ++ bytes ++ buffer.drop (sz.toNat + bytes.length))
  else none

/-- The `n` bytes at `&buffer[sz]` that a `memcpy` reads. -/
def memcpyFrom (buffer : List UInt8) (sz n : UInt64) : Option (List UInt8) :=
  if sz.toNat + n.toNat ≤ buffer.length then some ((buffer.drop sz.toNat).take n.toNat) else none

/-- The loop that adds up the lengths. -/
def totalLoop : List Iovec → UInt64 → UInt64
  | [], sz => sz
  | v :: iov, sz => totalLoop iov (sz + v.len)

/-- The loop of `customWritev` that fills the internal buffer. -/
def gatherLoop (mem : Memory) : List Iovec → List UInt8 → UInt64 → Option (List UInt8 × UInt64)
  | [], buffer, sz => some (buffer, sz)
  | v :: iov, buffer, sz => do
      let buffer ← memcpyTo buffer sz (mem.load v.base v.len.toNat)
      gatherLoop mem iov buffer (sz + v.len)

/-- The bytes that `customWritev` passes to `write`. -/
def customWritev (stale mem : Memory) (iov : List Iovec) : Option (List UInt8) := do
  let (buffer, sz) ← gatherLoop mem iov (malloc stale (totalLoop iov 0)) 0
  memcpyFrom buffer 0 sz

/-- The loop of `customReadv` that empties the internal buffer. -/
def scatterLoop (buffer : List UInt8) : List Iovec → UInt64 → UInt64 → Memory → Option Memory
  | [], _, _, mem => some mem
  | v :: iov, sz, bytes, mem => do
      let copied ← memcpyFrom buffer sz (cmin bytes v.len)
      scatterLoop buffer iov (sz + cmin bytes v.len) (bytes - cmin bytes v.len)
        (mem.store v.base copied)

/-- Memory after `customReadv`, where `read` returns these bytes. -/
def customReadv (stale mem : Memory) (iov : List Iovec) (got : List UInt8) : Option Memory := do
  let buffer ← memcpyTo (malloc stale (totalLoop iov 0)) 0 got
  scatterLoop buffer iov 0 (UInt64.ofNat got.length) mem

/-- The length of all buffers together. -/
def total (iov : List Iovec) : ℕ := (iov.map fun v => v.len.toNat).sum

/-- The contents of the buffers, one after the other. -/
def concat (mem : Memory) (iov : List Iovec) : List UInt8 :=
  iov.flatMap fun v => mem.load v.base v.len.toNat

def Iovec.Covers (v : Iovec) (a : ℕ) : Prop := v.base ≤ a ∧ a < v.base + v.len.toNat

/-- No two of the buffers share a byte. -/
def Separate (iov : List Iovec) : Prop := iov.Pairwise fun v w => ∀ a, v.Covers a → ¬ w.Covers a

section Totals

variable {v : Iovec} {iov : List Iovec} {sz : UInt64}

@[simp] theorem total_cons (v : Iovec) (iov : List Iovec) :
    total (v :: iov) = v.len.toNat + total iov := by
  simp [total]

@[simp] theorem concat_cons (mem : Memory) (v : Iovec) (iov : List Iovec) :
    concat mem (v :: iov) = mem.load v.base v.len.toNat ++ concat mem iov := by
  simp [concat]

@[simp] theorem length_concat (mem : Memory) (iov : List Iovec) :
    (concat mem iov).length = total iov := by
  simp [concat, total, List.length_flatMap]

theorem toNat_add_of_lt {m n : UInt64} (h : m.toNat + n.toNat < 2 ^ 64) :
    (m + n).toNat = m.toNat + n.toNat := by
  rw [UInt64.toNat_add]
  exact Nat.mod_eq_of_lt h

theorem cmin_toNat (m n : UInt64) : (cmin m n).toNat = min m.toNat n.toNat := by
  unfold cmin
  split
  next h =>
    rw [UInt64.lt_iff_toNat_lt] at h
    omega
  next h =>
    rw [UInt64.lt_iff_toNat_lt] at h
    omega

/-- Without a wrap, the first loop adds up the lengths. -/
theorem totalLoop_toNat (h : sz.toNat + total iov < 2 ^ 64) :
    (totalLoop iov sz).toNat = sz.toNat + total iov := by
  induction iov generalizing sz with
  | nil => rfl
  | cons v iov ih =>
      rw [total_cons] at h ⊢
      have hadd : (sz + v.len).toNat = sz.toNat + v.len.toNat := toNat_add_of_lt (by omega)
      rw [totalLoop, ih (by omega), hadd]
      omega

theorem length_malloc (stale : Memory) (h : total iov < 2 ^ 63) :
    (malloc stale (totalLoop iov 0)).length = total iov := by
  have htotal := totalLoop_toNat (show (0 : UInt64).toNat + total iov < 2 ^ 64 by simp; omega)
  rw [malloc, Memory.length_load, htotal]
  simp

end Totals

section Gathering

variable {mem : Memory} {sz : UInt64}

theorem memcpyTo_append {done rest bytes : List UInt8} (hsz : sz.toNat = done.length)
    (hle : bytes.length ≤ rest.length) :
    memcpyTo (done ++ rest) sz bytes = some (done ++ bytes ++ rest.drop bytes.length) := by
  unfold memcpyTo
  rw [if_pos (by rw [List.length_append]; omega), hsz, List.take_left, List.drop_append]
  simp

theorem memcpyFrom_all {buffer : List UInt8} (hsz : sz.toNat = buffer.length) :
    memcpyFrom buffer 0 sz = some buffer := by
  unfold memcpyFrom
  simp [hsz]

/-- After the buffers that were copied, the rest of the internal buffer is filled. -/
theorem gatherLoop_eq (iov : List Iovec) {done rest : List UInt8} (hsz : sz.toNat = done.length)
    (hrest : rest.length = total iov) (hlt : done.length + total iov < 2 ^ 64) :
    ∃ sz', gatherLoop mem iov (done ++ rest) sz = some (done ++ concat mem iov, sz') ∧
      sz'.toNat = (done ++ concat mem iov).length := by
  induction iov generalizing sz done rest with
  | nil =>
      obtain rfl : rest = [] := List.eq_nil_of_length_eq_zero hrest
      exact ⟨sz, rfl, by simpa [concat] using hsz⟩
  | cons v iov ih =>
      rw [total_cons] at hrest hlt
      have hlen : (mem.load v.base v.len.toNat).length = v.len.toNat := mem.length_load
      have hadd : (sz + v.len).toNat = (done ++ mem.load v.base v.len.toNat).length := by
        rw [toNat_add_of_lt (by omega), List.length_append, hlen, hsz]
      obtain ⟨sz', hrun, hsz'⟩ := ih hadd
        (show (rest.drop (mem.load v.base v.len.toNat).length).length = total iov by
          rw [List.length_drop, hlen]
          omega)
        (by rw [List.length_append, hlen]; omega)
      rw [gatherLoop, memcpyTo_append hsz (by omega), concat_cons, ← List.append_assoc]
      exact ⟨sz', hrun, hsz'⟩

/-- `write` gets the contents of the buffers, one after the other. -/
theorem customWritev_eq (stale : Memory) {iov : List Iovec} (h : total iov < 2 ^ 63) :
    customWritev stale mem iov = some (concat mem iov) := by
  have hzero : (0 : UInt64).toNat = ([] : List UInt8).length := rfl
  obtain ⟨sz, hrun, hsz⟩ : ∃ sz, gatherLoop mem iov ([] ++ malloc stale (totalLoop iov 0)) 0 =
      some ([] ++ concat mem iov, sz) ∧ sz.toNat = ([] ++ concat mem iov).length :=
    gatherLoop_eq iov hzero (length_malloc stale h) (by simp; omega)
  rw [List.nil_append, List.nil_append] at hrun
  rw [customWritev, hrun]
  exact memcpyFrom_all hsz

end Gathering

section Scattering

variable {mem : Memory}

/-- What a call leaves in memory: the bytes that were read, then what the buffers held before,
and nothing else changed. -/
structure Scattered (mem mem' : Memory) (iov : List Iovec) (got : List UInt8) : Prop where
  buffers : concat mem' iov = got ++ (concat mem iov).drop got.length
  outside : ∀ a, (∀ v ∈ iov, ¬ v.Covers a) → mem' a = mem a

theorem concat_congr {mem' : Memory} {iov : List Iovec}
    (h : ∀ v ∈ iov, ∀ a, v.Covers a → mem' a = mem a) : concat mem' iov = concat mem iov := by
  apply List.flatMap_congr
  intro v hv
  apply Memory.load_congr
  intro a hle hlt
  exact h v hv a ⟨hle, hlt⟩

/-- Either a buffer was filled, or nothing is left for the ones after it. -/
theorem append_scattered {copied left old rest : List UInt8}
    (h : copied.length = old.length ∨ left = [] ∧ copied.length ≤ old.length) :
    copied ++ old.drop copied.length ++ (left ++ rest.drop left.length) =
      copied ++ left ++ (old ++ rest).drop (copied ++ left).length := by
  rcases h with hfull | ⟨rfl, hle⟩
  · rw [List.length_append, hfull, List.drop_length, List.append_nil, List.drop_length_add_append,
      List.append_assoc]
  · rw [List.append_nil, List.drop_append_of_le_length hle, List.nil_append, List.length_nil,
      List.drop_zero, List.append_assoc]

/-- One iteration: a part of the bytes is stored in the first buffer, and the rest scattered
over the ones after it. -/
theorem Scattered.cons {mem' : Memory} {v : Iovec} {iov : List Iovec} {copied left : List UInt8}
    (h : Scattered (mem.store v.base copied) mem' iov left)
    (hsep : ∀ w ∈ iov, ∀ a, v.Covers a → ¬ w.Covers a)
    (hcopied : copied.length = v.len.toNat ∨ left = [] ∧ copied.length ≤ v.len.toNat) :
    Scattered mem mem' (v :: iov) (copied ++ left) := by
  have hle : copied.length ≤ v.len.toNat := by
    rcases hcopied with heq | ⟨-, hle⟩
    · exact heq.le
    · exact hle
  have hstored : ∀ a, ¬ v.Covers a → mem.store v.base copied a = mem a := by
    intro a ha
    apply Memory.store_outside
    rintro ⟨hbase, hlt⟩
    exact ha ⟨hbase, by omega⟩
  have hfirst : mem'.load v.base v.len.toNat =
      copied ++ (mem.load v.base v.len.toNat).drop copied.length := by
    rw [← Memory.load_store mem hle]
    apply Memory.load_congr
    intro a hbase hlt
    exact h.outside a fun w hw => hsep w hw a ⟨hbase, hlt⟩
  have hrest : concat (mem.store v.base copied) iov = concat mem iov :=
    concat_congr fun w hw a ha => hstored a fun hv => hsep w hw a hv ha
  constructor
  · rw [concat_cons, concat_cons, hfirst, h.buffers, hrest]
    apply append_scattered
    rwa [Memory.length_load]
  · intro a ha
    obtain ⟨hv, hiov⟩ := List.forall_mem_cons.mp ha
    rw [h.outside a hiov, hstored a hv]

theorem memcpyFrom_eq {buffer : List UInt8} {sz n : UInt64}
    (h : sz.toNat + n.toNat ≤ buffer.length) :
    memcpyFrom buffer sz n = some ((buffer.drop sz.toNat).take n.toNat) :=
  if_pos h

/-- From `sz` on, so many bytes of the internal buffer are scattered. -/
theorem scatterLoop_eq (iov : List Iovec) (hsep : Separate iov) {buffer : List UInt8}
    {sz bytes : UInt64} (hroom : sz.toNat + bytes.toNat ≤ buffer.length)
    (hbuffer : buffer.length < 2 ^ 64) (hbytes : bytes.toNat ≤ total iov) (mem : Memory) :
    ∃ mem', scatterLoop buffer iov sz bytes mem = some mem' ∧
      Scattered mem mem' iov ((buffer.drop sz.toNat).take bytes.toNat) := by
  induction iov generalizing sz bytes mem with
  | nil =>
      have hzero : bytes.toNat = 0 := Nat.le_zero.mp hbytes
      refine ⟨mem, rfl, ?_, fun _ _ => rfl⟩
      simp [hzero, concat]
  | cons v iov ih =>
      obtain ⟨hv, hiov⟩ := List.pairwise_cons.mp hsep
      rw [total_cons] at hbytes
      have hmin := cmin_toNat bytes v.len
      have hsz : (sz + cmin bytes v.len).toNat = sz.toNat + (cmin bytes v.len).toNat :=
        toNat_add_of_lt (by omega)
      have hleft : (bytes - cmin bytes v.len).toNat = bytes.toNat - (cmin bytes v.len).toNat :=
        UInt64.toNat_sub_of_le _ _ (by rw [UInt64.le_iff_toNat_le]; omega)
      have hroom' : (sz + cmin bytes v.len).toNat + (bytes - cmin bytes v.len).toNat ≤
          buffer.length := by
        omega
      obtain ⟨mem', hrun, hscattered⟩ := ih hiov hroom' (by omega)
        (mem.store v.base ((buffer.drop sz.toNat).take (cmin bytes v.len).toNat))
      refine ⟨mem', ?_, ?_⟩
      · rw [scatterLoop, memcpyFrom_eq (by omega)]
        exact hrun
      · have hsplit : bytes.toNat =
            (cmin bytes v.len).toNat + (bytes - cmin bytes v.len).toNat := by
          omega
        rw [hsplit, List.take_add, List.drop_drop, ← hsz]
        apply hscattered.cons hv
        have hlen : ((buffer.drop sz.toNat).take (cmin bytes v.len).toNat).length =
            (cmin bytes v.len).toNat := by
          rw [List.length_take, List.length_drop]
          omega
        rw [hlen]
        by_cases hfull : v.len.toNat ≤ bytes.toNat
        · exact .inl (by omega)
        · have hnone : (bytes - cmin bytes v.len).toNat = 0 := by omega
          rw [hnone]
          exact .inr ⟨List.take_zero, by omega⟩

theorem customReadv_eq (stale mem : Memory) {iov : List Iovec} (hsep : Separate iov)
    (htotal : total iov < 2 ^ 63) {got : List UInt8} (hgot : got.length ≤ total iov) :
    ∃ mem', customReadv stale mem iov got = some mem' ∧ Scattered mem mem' iov got := by
  have hmalloc := length_malloc stale htotal
  have hcopy : memcpyTo (malloc stale (totalLoop iov 0)) 0 got =
      some (got ++ (malloc stale (totalLoop iov 0)).drop got.length) := by
    have hzero : (0 : UInt64).toNat = ([] : List UInt8).length := rfl
    have hle : got.length ≤ (malloc stale (totalLoop iov 0)).length := by omega
    exact memcpyTo_append hzero hle
  have hbytes : (UInt64.ofNat got.length).toNat = got.length := by
    apply UInt64.toNat_ofNat_of_lt'
    show got.length < 2 ^ 64
    omega
  have hlen : (got ++ (malloc stale (totalLoop iov 0)).drop got.length).length = total iov := by
    rw [List.length_append, List.length_drop]
    omega
  obtain ⟨mem', hrun, hscattered⟩ := scatterLoop_eq iov hsep
    (show (0 : UInt64).toNat + (UInt64.ofNat got.length).toNat ≤
      (got ++ (malloc stale (totalLoop iov 0)).drop got.length).length by
        rw [hbytes, hlen]
        simpa using hgot) (by omega) (by omega) mem
  refine ⟨mem', ?_, ?_⟩
  · rw [customReadv, hcopy]
    exact hrun
  · rw [hbytes, UInt64.toNat_zero, List.drop_zero, List.take_left] at hscattered
    exact hscattered

end Scattering

/-- Gathering passes the concatenation of the buffers to `write`; scattering fills them in order
with as many bytes as were read; and what was gathered from some buffers is what any others of
the same total length hold after it is scattered over them. -/
theorem gather_scatter (stale stale' : Memory) :
    (∀ mem iov, Separate iov → total iov < 2 ^ 63 →
        customWritev stale mem iov = some (concat mem iov)) ∧
      (∀ mem iov (input : List UInt8) (r : ℕ), Separate iov → total iov < 2 ^ 63 →
        r ≤ total iov → r ≤ input.length →
        ∃ mem', customReadv stale' mem iov (input.take r) = some mem' ∧
          (concat mem' iov).take r = input.take r ∧
          (concat mem' iov).drop r = (concat mem iov).drop r ∧
          ∀ a, (∀ v ∈ iov, ¬ v.Covers a) → mem' a = mem a) ∧
      ∀ mem₁ iov₁ mem₂ iov₂, Separate iov₁ → Separate iov₂ → total iov₁ = total iov₂ →
        total iov₁ < 2 ^ 63 →
        ∃ data mem', customWritev stale mem₁ iov₁ = some data ∧
          customReadv stale' mem₂ iov₂ data = some mem' ∧ concat mem' iov₂ = concat mem₁ iov₁ := by
  refine ⟨fun mem iov _ h => customWritev_eq stale h, ?_, ?_⟩
  · intro mem iov input r hsep htotal hr hinput
    have hlen : (input.take r).length = r := by simp [hinput]
    obtain ⟨mem', hrun, hbuffers, houtside⟩ :=
      customReadv_eq stale' mem hsep htotal (hlen.trans_le hr)
    rw [hlen] at hbuffers
    refine ⟨mem', hrun, ?_, ?_, houtside⟩
    · rw [hbuffers, List.take_append_of_le_length hlen.ge, List.take_of_length_le hlen.le]
    · rw [hbuffers, List.drop_append_of_le_length hlen.ge, List.drop_of_length_le hlen.le,
        List.nil_append]
  · intro mem₁ iov₁ mem₂ iov₂ _ hsep htotal hlt
    have hlen : (concat mem₁ iov₁).length = total iov₂ := by rw [length_concat, htotal]
    obtain ⟨mem', hrun, hbuffers, -⟩ :=
      customReadv_eq stale' mem₂ hsep (htotal ▸ hlt) hlen.le
    refine ⟨_, mem', customWritev_eq stale hlt, hrun, ?_⟩
    rw [hbuffers, List.drop_of_length_le (by rw [length_concat, hlen]), List.append_nil]

/-- Three bytes gathered from buffers of one and two bytes, and scattered over one of two, an
empty one and one of one byte. -/
theorem gather_scatter_three :
    ∃ data mem', customWritev (fun _ => 0) (fun a => UInt8.ofNat a) [⟨97, 1⟩, ⟨99, 2⟩] = some data ∧
      customReadv (fun _ => 0) (fun _ => 0) [⟨200, 2⟩, ⟨201, 0⟩, ⟨202, 1⟩] data = some mem' ∧
      concat mem' [⟨200, 2⟩, ⟨201, 0⟩, ⟨202, 1⟩] = [97, 99, 100] := by
  have hsep₁ : Separate [⟨97, 1⟩, ⟨99, 2⟩] := by
    simp [Separate, Iovec.Covers]
    omega
  have hsep₂ : Separate [⟨200, 2⟩, ⟨201, 0⟩, ⟨202, 1⟩] := by
    simp [Separate, Iovec.Covers]
    constructor <;> omega
  exact (gather_scatter (fun _ => 0) (fun _ => 0)).2.2 (fun a => UInt8.ofNat a) [⟨97, 1⟩, ⟨99, 2⟩]
    (fun _ => 0) [⟨200, 2⟩, ⟨201, 0⟩, ⟨202, 1⟩] hsep₁ hsep₂ rfl (by decide)

end TlpiExercises.ScatterGather
