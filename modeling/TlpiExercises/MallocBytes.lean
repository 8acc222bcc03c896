import TlpiExercises.LittleEndian
import TlpiExercises.MallocHeap
import TlpiExercises.ScatterGather

/-!
# The allocator on the bytes of memory

The headers lie in the same memory as the data of the caller: a size and a link of eight bytes
each and a flag of four. The functions read and write these bytes, and the caller may store into
every allocation it holds. The records of the list are what the bytes at the addresses of the
list decode to, as long as every store stays inside its allocation.
-/
namespace TlpiExercises.MallocBytes
open LittleEndian Malloc ScatterGather

/-- The header at an address. -/
def headerAt (mem : Memory) (p : ℕ) : MemBlockMeta where
  size := decode (mem.load p 8)
  next := decode (mem.load (p + 8) 8)
  occupied := Int.bmod (decode (mem.load (p + 16) 4)) (2 ^ 32)

def setSize (mem : Memory) (p sz : ℕ) : Memory := mem.store p (encode 8 sz)
def setNext (mem : Memory) (p q : ℕ) : Memory := mem.store (p + 8) (encode 8 q)
def setOccupied (mem : Memory) (p : ℕ) (flag : Bool) : Memory :=
  mem.store (p + 16) (encode 4 flag.toNat)

/-- The allocator's variable and the memory; `granted` records the successful calls of `sbrk`. -/
structure RawProcess where
  memBlockList : ℕ
  mem : Memory
  granted : List (ℕ × ℤ)

def findFreeBlock (mem : Memory) (sz : ℕ) : ℕ → ℕ → ℕ → Option (ℕ × ℕ)
  | 0, _, _ => none
  | fuel + 1, p, last =>
      if p = NULL then some (NULL, last)
      else if (headerAt mem p).occupied = 0 ∧ sz ≤ (headerAt mem p).size then some (p, p)
      else findFreeBlock mem sz fuel (headerAt mem p).next p

def requestSpace (answer : Option ℕ) (sz : ℕ) (s : RawProcess) : ℕ × RawProcess :=
  match answer with
  | none => (NULL, s)
  | some p => (p, { s with
      mem := setSize (setNext (setOccupied s.mem p false) p NULL) p sz
      granted := s.granted ++ [(p, sbrkIncrement sz)] })

def growList (answer : Option ℕ) (sz last : ℕ) (s : RawProcess) : ℕ × RawProcess :=
  let r := requestSpace answer sz s
  if s.memBlockList ≠ NULL then (r.1, { r.2 with mem := setNext r.2.mem last r.1 })
  else (r.1, { r.2 with memBlockList := r.1 })

/-- The call, if the walk over the list ends within `fuel` blocks. -/
def myMalloc (fuel : ℕ) (answer : Option ℕ) (last sz : ℕ) (s : RawProcess) :
    Option (ℕ × RawProcess) :=
  if sz = 0 then some (NULL, s)
  else do
    let (p, last) ← findFreeBlock s.mem sz fuel s.memBlockList last
    let r := if p = NULL then growList answer sz last s else (p, s)
    if r.1 = NULL then return (NULL, r.2)
    return (r.1 + memBlockMetaSize, { r.2 with mem := setOccupied r.2.mem r.1 true })

/-- The call, if its assertions hold. -/
def myFree (ptr : ℕ) (s : RawProcess) : Option RawProcess :=
  let p := headerOf ptr
  if p ≠ NULL ∧ (headerAt s.mem p).occupied = 1 then
    some { s with mem := setOccupied s.mem p false }
  else none

/-- The allocator, the allocations that the caller holds, and what it has stored through each
pointer, by offset, since the pointer was returned. -/
structure RawRun where
  proc : RawProcess
  live : List (ℕ × ℕ)
  stored : ℕ → ℕ → Option UInt8

/-- What `sbrk` promises about the new region. -/
structure Unused (s : RawProcess) (m a : ℕ) : Prop where
  ne_null : a ≠ NULL
  bound : a + m ≤ 2 ^ 64
  disjoint : ∀ g ∈ s.granted, Disjoint (bytes a m) (region g)

/-- A call, or a byte that the caller stores in an allocation it holds. -/
inductive Step : RawRun → RawRun → Prop
  | malloc {r : RawRun} (sz : ℕ) (answer : Option ℕ) (last fuel : ℕ) {p : ℕ} {s : RawProcess}
      (hsz : sz + memBlockMetaSize < 2 ^ 63)
      (hsbrk : ∀ a, answer = some a → Unused r.proc (sz + memBlockMetaSize) a)
      (hcall : myMalloc fuel answer last sz r.proc = some (p, s)) :
      Step r ⟨s, if p = NULL then r.live else (p, sz) :: r.live,
        Function.update r.stored p fun _ => none⟩
  | free {r : RawRun} {x : ℕ × ℕ} {s : RawProcess} (hlive : x ∈ r.live)
      (hcall : myFree x.1 r.proc = some s) : Step r ⟨s, r.live.erase x, r.stored⟩
  | store {r : RawRun} {x : ℕ × ℕ} (o : ℕ) (v : UInt8) (hlive : x ∈ r.live) (ho : o < x.2) :
      Step r ⟨{ r.proc with mem := r.proc.mem.store (x.1 + o) [v] }, r.live,
        Function.update r.stored x.1 (Function.update (r.stored x.1) o (some v))⟩

/-- Memory holds anything at first. -/
def system : System RawRun where
  init r := r.proc.memBlockList = NULL ∧ r.proc.granted = [] ∧ r.live = []
  step := Step

section Fields

variable {mem : Memory} {p q : ℕ}

/-- A store elsewhere does not change a header. -/
theorem headerAt_store {base : ℕ} {bs : List UInt8}
    (h : base + bs.length ≤ q ∨ q + memBlockMetaSize ≤ base) :
    headerAt (mem.store base bs) q = headerAt mem q := by
  have hsame : ∀ a, q ≤ a → a < q + memBlockMetaSize → mem.store base bs a = mem a :=
    fun a hl hr => mem.store_outside (by omega)
  simp only [memBlockMetaSize] at hsame
  unfold headerAt
  rw [mem.load_congr fun a hl hr => hsame a hl (by omega),
    mem.load_congr fun a hl hr => hsame a (by omega) (by omega),
    mem.load_congr fun a hl hr => hsame a (by omega) (by omega)]

/-- What is loaded from where a number was stored. -/
theorem decode_load_store (base width : ℕ) {x : ℕ} (h : x < 256 ^ width) :
    decode ((mem.store base (encode width x)).load base width) = x := by
  rw [mem.load_store (by simp), length_encode, List.drop_eq_nil_of_le (by simp),
    List.append_nil, decode_encode_of_lt h]

theorem load_store_of_disjoint {base n b : ℕ} {bs : List UInt8}
    (h : base + bs.length ≤ b ∨ b + n ≤ base) : (mem.store base bs).load b n = mem.load b n :=
  mem.load_congr fun _ hl hr => mem.store_outside (by omega)

theorem headerAt_setSize {sz : ℕ} (h : sz < 2 ^ 64) :
    headerAt (setSize mem p sz) p = { headerAt mem p with size := sz } := by
  unfold headerAt setSize
  rw [decode_load_store p 8 (by omega), load_store_of_disjoint (by simp),
    load_store_of_disjoint (by simp)]

theorem headerAt_setNext (h : q < 2 ^ 64) :
    headerAt (setNext mem p q) p = { headerAt mem p with next := q } := by
  unfold headerAt setNext
  rw [decode_load_store (p + 8) 8 (by omega), load_store_of_disjoint (by simp),
    load_store_of_disjoint (by simp)]

theorem headerAt_setOccupied (flag : Bool) :
    headerAt (setOccupied mem p flag) p = { headerAt mem p with occupied := flag.toNat } := by
  have hflag : flag.toNat < 256 ^ 4 := flag.toNat_lt.trans (by decide)
  have hbmod : Int.bmod flag.toNat (2 ^ 32) = flag.toNat := by cases flag <;> decide
  unfold headerAt setOccupied
  rw [decode_load_store (p + 16) 4 hflag, load_store_of_disjoint (by simp),
    load_store_of_disjoint (by simp), hbmod]

end Fields

/-- The records at these addresses are the headers in memory. -/
def Agree (mem : Memory) (s : Process) (l : List ℕ) : Prop :=
  ∀ a ∈ l, s.mem a = some (headerAt mem a)

/-- Headers at these addresses do not overlap. -/
def Apart (l : List ℕ) : Prop :=
  ∀ a ∈ l, ∀ b ∈ l, a ≠ b → a + memBlockMetaSize ≤ b ∨ b + memBlockMetaSize ≤ a

theorem le_of_disjoint {a m b n : ℕ} (hm : memBlockMetaSize ≤ m) (hn : memBlockMetaSize ≤ n)
    (h : Disjoint (bytes a m) (bytes b n)) :
    a + memBlockMetaSize ≤ b ∨ b + memBlockMetaSize ≤ a := by
  rw [bytes, bytes, Set.Ico_disjoint_Ico] at h
  simp only [memBlockMetaSize] at *
  omega

theorem Apart.of_layout {s : Process} {l : List ℕ} (h : Layout s l) : Apart l := by
  intro a ha b hb hab
  obtain ⟨sza, fa, hva, -⟩ := h.flag a ha
  obtain ⟨szb, fb, hvb, -⟩ := h.flag b hb
  exact le_of_disjoint (by omega) (by omega) (h.disjoint_of_ne ha hb hva hvb hab)

theorem Apart.concat {s : Process} {l : List ℕ} (h : Layout s l) {m a : ℕ}
    (hm : memBlockMetaSize ≤ m) (hf : Fresh s m a) : Apart (l ++ [a]) := by
  have hnew : ∀ c ∈ l, a + memBlockMetaSize ≤ c ∨ c + memBlockMetaSize ≤ a := by
    intro c hc
    obtain ⟨sz, flag, hv, -⟩ := h.flag c hc
    have hd := hf.disjoint _ (h.granted_of_mem hc hv)
    rw [region, Int.toNat_natCast] at hd
    exact le_of_disjoint hm (by omega) hd
  intro c hc d hd hcd
  rw [List.mem_append, List.mem_singleton] at hc hd
  rcases hc with hc | rfl <;> rcases hd with hd | rfl
  · exact Apart.of_layout h c hc d hd hcd
  · exact (hnew c hc).symm
  · exact hnew d hd
  · exact absurd rfl hcd

section Agree

variable {mem : Memory} {s : Process} {l : List ℕ} {a : ℕ}

/-- Bytes of one header are overwritten. -/
theorem Agree.store (h : Agree mem s l) (hl : Apart l) {base : ℕ} {bs : List UInt8}
    (hin : a ≤ base ∧ base + bs.length ≤ a + memBlockMetaSize) (ha : a ∈ l) :
    Agree (mem.store base bs) (s.put a (headerAt (mem.store base bs) a)) l := by
  intro c hc
  by_cases hca : c = a
  · subst hca
    rw [Process.put_mem_self]
  · have hfar := hl a ha c hc (Ne.symm hca)
    rw [Process.put_mem_of_ne _ _ hca, headerAt_store (by omega)]
    exact h c hc

theorem Agree.setOccupied (h : Agree mem s l) (hl : Apart l) (ha : a ∈ l) (flag : Bool) :
    Agree (setOccupied mem a flag) (s.put a { headerAt mem a with occupied := flag.toNat }) l := by
  rw [← headerAt_setOccupied flag]
  exact h.store hl (by simp only [length_encode, memBlockMetaSize]; omega) ha

theorem Agree.setNext (h : Agree mem s l) (hl : Apart l) (ha : a ∈ l) {q : ℕ} (hq : q < 2 ^ 64) :
    Agree (setNext mem a q) (s.put a { headerAt mem a with next := q }) l := by
  rw [← headerAt_setNext hq]
  exact h.store hl (by simp only [length_encode, memBlockMetaSize]; omega) ha

/-- The walk over the bytes is the walk over the records. -/
theorem run_findFreeBlock_of_agree {p : ℕ} (hl : Chain s.next NULL p l) (h : Agree mem s l)
    (sz fuel last : ℕ) :
    (Malloc.findFreeBlock sz fuel p last).run s =
      match findFreeBlock mem sz fuel p last with
      | some r => .ok r s
      | none => .error .fuel s := by
  induction fuel generalizing p l last with
  | zero => rfl
  | succ fuel ih =>
      cases l with
      | nil =>
          obtain rfl : p = NULL := hl
          simp [Malloc.findFreeBlock, findFreeBlock]
      | cons a l =>
          obtain ⟨rfl, hp, q, hn, hq⟩ := hl
          have hmem := h p (by simp)
          have hnext : (headerAt mem p).next = q := by simpa [Process.next, hmem] using hn
          simp only [Malloc.findFreeBlock, findFreeBlock, if_neg hp, EStateM.run_bind,
            run_load hmem]
          by_cases hfit : (headerAt mem p).occupied = 0 ∧ sz ≤ (headerAt mem p).size
          · rw [if_pos hfit, if_pos hfit]
            rfl
          · rw [if_neg hfit, if_neg hfit, hnext]
            exact ih hq (fun c hc => h c (by simp [hc])) p

/-- A walk that ends has found the first block that fits, or the end of the list. -/
theorem findFreeBlock_eq {p : ℕ} (hl : Chain s.next NULL p l) (h : Agree mem s l)
    {sz fuel last : ℕ} {r : ℕ × ℕ} (hr : findFreeBlock mem sz fuel p last = some r) :
    r = match l.find? (fits s sz) with
      | some a => (a, a)
      | none => (NULL, l.getLastD last) := by
  have hrun := run_findFreeBlock_of_agree hl h sz fuel last
  rw [hr] at hrun
  have hmax := run_findFreeBlock_mono hrun (le_max_left fuel (l.length + 1))
  rw [run_findFreeBlock hl sz _ last (by omega)] at hmax
  injection hmax with hr'
  exact hr'.symm

end Agree

/-- Only bytes of these headers differ. -/
def Frame (l : List ℕ) (mem mem' : Memory) : Prop :=
  ∀ c, (∀ a ∈ l, c ∉ header a) → mem' c = mem c

section Frame

variable {mem mem' mem'' : Memory} {l : List ℕ} {a : ℕ}

theorem Frame.trans (h : Frame l mem mem') (h' : Frame l mem' mem'') : Frame l mem mem'' :=
  fun c hc => (h' c hc).trans (h c hc)

theorem Frame.store (mem : Memory) (ha : a ∈ l) {base : ℕ} {bs : List UInt8}
    (hin : a ≤ base ∧ base + bs.length ≤ a + memBlockMetaSize) : Frame l mem (mem.store base bs) := by
  intro c hc
  refine mem.store_outside fun hcb => hc a ha ⟨by omega, by omega⟩

theorem Frame.setSize (mem : Memory) (ha : a ∈ l) (sz : ℕ) : Frame l mem (setSize mem a sz) :=
  .store mem ha (by simp only [length_encode, memBlockMetaSize]; omega)

theorem Frame.setNext (mem : Memory) (ha : a ∈ l) (q : ℕ) : Frame l mem (setNext mem a q) :=
  .store mem ha (by simp only [length_encode, memBlockMetaSize]; omega)

theorem Frame.setOccupied (mem : Memory) (ha : a ∈ l) (flag : Bool) :
    Frame l mem (setOccupied mem a flag) :=
  .store mem ha (by simp only [length_encode, memBlockMetaSize]; omega)

theorem Frame.requestSpace (b : RawProcess) (ha : a ∈ l) (sz : ℕ) :
    Frame l b.mem (requestSpace (some a) sz b).2.mem :=
  ((Frame.setOccupied b.mem ha false).trans (.setNext _ ha NULL)).trans (.setSize _ ha sz)

end Frame

/-- The two processes have the same list, and the calls of `sbrk` had the same results. -/
structure Image (b : RawProcess) (s : Process) (l : List ℕ) : Prop where
  head : b.memBlockList = s.memBlockList
  granted : b.granted = s.granted
  agree : Agree b.mem s l

section Calls

variable {b b' : RawProcess} {s : Process} {l : List ℕ} {a sz fuel last p : ℕ}

theorem Unused.fresh (h : Unused b sz a) (hb : Image b s l) : Fresh s sz a :=
  ⟨h.ne_null, h.bound, hb.granted ▸ h.disjoint⟩

/-- The header of a new block, and no other. -/
theorem Image.request (hb : Image b s l) (hl : Layout s l)
    (hsz : sz + memBlockMetaSize < 2 ^ 63) (hf : Fresh s (sz + memBlockMetaSize) a) :
    Image (requestSpace (some a) sz b).2 (s.grown a sz) (l ++ [a]) := by
  refine ⟨hb.head, congrArg (· ++ _) hb.granted, fun c hc => ?_⟩
  by_cases hca : c = a
  · subst hca
    have hheader : headerAt (requestSpace (some c) sz b).2.mem c = ⟨sz, NULL, 0⟩ := by
      show headerAt (setSize (setNext (setOccupied b.mem c false) c NULL) c sz) c = _
      rw [headerAt_setSize (by omega), headerAt_setNext (by decide), headerAt_setOccupied]
      rfl
    rw [hheader]
    exact Process.put_mem_self _ c _
  · have hcl : c ∈ l := by simpa [hca] using hc
    have hfar := Apart.concat hl (by omega) hf a (by simp) c hc (Ne.symm hca)
    have hheader : headerAt (requestSpace (some a) sz b).2.mem c =
        headerAt b.mem c := by
      show headerAt (setSize (setNext (setOccupied b.mem a false) a NULL) a sz) c = _
      simp only [memBlockMetaSize] at hfar
      unfold setSize setNext setOccupied
      rw [headerAt_store, headerAt_store, headerAt_store] <;>
        simp only [length_encode, memBlockMetaSize] <;> omega
    rw [hheader, Process.grown, Process.put_mem_of_ne _ _ hca]
    exact hb.agree c hcl

theorem growList_of_null (answer : Option ℕ) (h : b.memBlockList = NULL) :
    growList answer sz last b = ((requestSpace answer sz b).1,
      { (requestSpace answer sz b).2 with memBlockList := (requestSpace answer sz b).1 }) :=
  if_neg (not_not.mpr h)

theorem growList_of_ne (answer : Option ℕ) (h : b.memBlockList ≠ NULL) :
    growList answer sz last b = ((requestSpace answer sz b).1, { (requestSpace answer sz b).2 with
      mem := setNext (requestSpace answer sz b).2.mem last (requestSpace answer sz b).1 }) :=
  if_pos h

/-- The miss branch, when `sbrk` grants a region. -/
theorem Image.grow (hb : Image b s l) (last : ℕ) (hl : Layout s l)
    (hsz : sz + memBlockMetaSize < 2 ^ 63) (hf : Fresh s (sz + memBlockMetaSize) a) :
    ∃ s₁, (Malloc.growList (some a) sz (l.getLastD last)).run s = .ok a s₁ ∧
      (growList (some a) sz (l.getLastD last) b).1 = a ∧
      Image (growList (some a) sz (l.getLastD last) b).2 s₁ (l ++ [a]) ∧
      Frame (l ++ [a]) b.mem (growList (some a) sz (l.getLastD last) b).2.mem := by
  have hmem : a ∈ l ++ [a] := List.mem_concat_self
  have hframe := Frame.requestSpace b hmem sz
  have hreq := run_requestSpace_some s a sz
  have hnew := hb.request hl hsz hf
  rcases List.eq_nil_or_concat' l with rfl | ⟨l, t, rfl⟩
  · have hnull : s.memBlockList = NULL := hl.chain
    rw [growList_of_null _ (hb.head.trans hnull)]
    exact ⟨_, run_growList_head hnull hreq, rfl, ⟨rfl, hnew.granted, hnew.agree⟩, hframe⟩
  · have hhead : s.memBlockList ≠ NULL := by
      intro h
      simpa using hl.chain.head_eq_null_iff.mp h
    have hbound : a < 2 ^ 64 := lt_of_lt_of_le (by simp) hf.bound
    have hapart := Apart.concat hl (by omega) hf
    rw [List.getLastD_concat, growList_of_ne _ (hb.head ▸ hhead)]
    have ht : t ∈ l ++ [t] ++ [a] := by simp
    exact ⟨_, run_growList_link hhead hreq (hnew.agree t ht), rfl,
      ⟨hnew.head, hnew.granted, hnew.agree.setNext hapart ht hbound⟩, hframe.trans (.setNext _ ht a)⟩

/-- The miss branch, when `sbrk` refuses: the link behind the last block stays NULL. -/
theorem Image.refused (hb : Image b s l) (last : ℕ) (hl : Layout s l) :
    (growList none sz (l.getLastD last) b).1 = NULL ∧
      Image (growList none sz (l.getLastD last) b).2 s l ∧
      Frame l b.mem (growList none sz (l.getLastD last) b).2.mem := by
  rcases List.eq_nil_or_concat' l with rfl | ⟨l, t, rfl⟩
  · have hnull : s.memBlockList = NULL := hl.chain
    rw [growList_of_null _ (hb.head.trans hnull)]
    exact ⟨rfl, ⟨hnull.symm, hb.granted, hb.agree⟩, fun _ _ => rfl⟩
  · have hhead : s.memBlockList ≠ NULL := by
      intro h
      simpa using hl.chain.head_eq_null_iff.mp h
    obtain ⟨c, hc, hnext⟩ := Process.next_eq_some hl.chain.next_last
    have hsame : s.put t { c with next := NULL } = s := by
      rw [← hnext]
      exact s.put_eq_self hc
    obtain rfl : c = headerAt b.mem t := Option.some.inj (hc.symm.trans (hb.agree t (by simp)))
    have hagree := hb.agree.setNext (Apart.of_layout hl) (List.mem_concat_self (a := t))
      (Nat.two_pow_pos 64)
    rw [hsame] at hagree
    rw [List.getLastD_concat, growList_of_ne _ (hb.head ▸ hhead)]
    exact ⟨rfl, ⟨hb.head, hb.granted, hagree⟩, .setNext _ List.mem_concat_self NULL⟩

/-- A call on the bytes is a call on the records. -/
theorem Image.malloc (hb : Image b s l) (hl : Layout s l) {answer : Option ℕ}
    (hsz : sz + memBlockMetaSize < 2 ^ 63)
    (hsbrk : ∀ a, answer = some a → Fresh s (sz + memBlockMetaSize) a)
    (hcall : myMalloc fuel answer last sz b = some (p, b')) :
    ∃ fuel' s' l', (Malloc.myMalloc fuel' answer last sz).run s = .ok p s' ∧
      Chain s'.next NULL s'.memBlockList l' ∧ Image b' s' l' ∧ Frame l' b.mem b'.mem := by
  unfold myMalloc at hcall
  by_cases hzero : sz = 0
  · rw [if_pos hzero] at hcall
    obtain ⟨rfl, rfl⟩ := Prod.mk.inj (Option.some.inj hcall)
    refine ⟨0, s, l, ?_, hl.chain, hb, fun _ _ => rfl⟩
    rw [Malloc.myMalloc, if_pos hzero, EStateM.run_pure]
  rw [if_neg hzero, Option.bind_eq_bind, Option.bind_eq_some_iff] at hcall
  obtain ⟨r, hr, hcall⟩ := hcall
  rw [hb.head] at hr
  have hfuel : l.length < l.length + 1 := Nat.lt_succ_self _
  obtain rfl := findFreeBlock_eq hl.chain hb.agree hr
  cases hfind : l.find? (fits s sz) with
  | some a =>
      have ha := List.mem_of_find?_eq_some hfind
      have hne : a ≠ NULL := hl.chain.ne_null ha
      simp only [hfind, if_neg hne] at hcall
      obtain ⟨rfl, rfl⟩ := Prod.mk.inj (Option.some.inj hcall)
      have hmem := hb.agree a ha
      refine ⟨_, _, l, run_myMalloc_hit hl.chain hzero hfuel answer last hfind hmem, ?_,
        ⟨hb.head, hb.granted, hb.agree.setOccupied (Apart.of_layout hl) ha true⟩,
        .setOccupied _ ha true⟩
      rw [Process.next_put_occupied hmem]
      exact hl.chain
  | none =>
      simp only [hfind, if_true] at hcall
      cases answer with
      | none =>
          obtain ⟨hnull, himage⟩ := hb.refused last hl
          rw [if_pos hnull] at hcall
          obtain ⟨rfl, rfl⟩ := Prod.mk.inj (Option.some.inj hcall)
          exact ⟨_, s, l, run_myMalloc_refused hl.chain hzero hfuel last hfind, hl.chain, himage⟩
      | some a =>
          have hf := hsbrk a rfl
          obtain ⟨s₁, hgrow, hfst, himage, hframe⟩ := hb.grow last hl hsz hf
          obtain ⟨s₂, hgrow', hchain, -, hmem, -⟩ := run_growList_append hl.chain sz last hf.ne_null
            (hl.not_mem_of_fresh (by simp) hf)
          obtain rfl : s₁ = s₂ := by
            rw [hgrow] at hgrow'
            injection hgrow'
          simp only [hfst, if_neg hf.ne_null] at hcall
          obtain ⟨rfl, rfl⟩ := Prod.mk.inj (Option.some.inj hcall)
          have hheader := himage.agree a (by simp)
          have hrun : (Malloc.myMalloc (l.length + 1) (some a) last sz).run s =
              .ok (a + memBlockMetaSize) (s₁.put a { headerAt
                (growList (some a) sz (l.getLastD last) b).2.mem a with occupied := 1 }) := by
            simp only [Malloc.myMalloc, if_neg hzero, EStateM.run_bind, EStateM.run_get,
              run_findFreeBlock hl.chain sz _ last hfuel, hfind, if_true, hgrow,
              if_neg hf.ne_null, run_load hheader, run_store, EStateM.run_pure]
          refine ⟨_, _, l ++ [a], hrun, ?_, ⟨himage.head, himage.granted,
            himage.agree.setOccupied (Apart.concat hl (by omega) hf) List.mem_concat_self true⟩,
            hframe.trans (.setOccupied _ List.mem_concat_self true)⟩
          rw [Process.next_put_occupied hheader]
          exact hchain

/-- A free of a block that is in use. -/
theorem Image.free (hb : Image b s l) (hl : Layout s l) (ha : a ∈ l)
    (hocc : (headerAt b.mem a).occupied = 1) (hbound : a + memBlockMetaSize ≤ 2 ^ 64) :
    ∃ b' s', myFree (a + memBlockMetaSize) b = some b' ∧
      (Malloc.myFree (a + memBlockMetaSize)).run s = .ok () s' ∧
      Chain s'.next NULL s'.memBlockList l ∧ Image b' s' l ∧ Frame l b.mem b'.mem := by
  have hne := hl.chain.ne_null ha
  have hmem := hb.agree a ha
  refine ⟨{ b with mem := setOccupied b.mem a false }, _, ?_,
    run_myFree_occupied hmem hne hbound hocc, ?_,
    ⟨hb.head, hb.granted, hb.agree.setOccupied (Apart.of_layout hl) ha false⟩,
    .setOccupied _ ha false⟩
  · unfold myFree
    rw [headerOf_payload hbound]
    exact if_pos ⟨hne, hocc⟩
  · rw [Process.next_put_occupied hmem]
    exact hl.chain

end Calls

section Runs

variable {r : RawRun} {u : Run} {l : List ℕ} {x y : ℕ × ℕ}

/-- The same allocations on the same list, and every byte that the caller has stored in an
allocation it holds is still there. -/
structure Refines (r : RawRun) (u : Run) (l : List ℕ) : Prop where
  chain : Chain u.proc.next NULL u.proc.memBlockList l
  image : Image r.proc u.proc l
  live : r.live = u.live
  kept : ∀ x ∈ r.live, ∀ o < x.2, ∀ v, r.stored x.1 o = some v → r.proc.mem (x.1 + o) = v

/-- No byte of an allocation belongs to a header. -/
theorem not_mem_header {s : Process} {live : List (ℕ × ℕ)} (hl : Layout s l)
    (hs : Serves s l live) (hx : x ∈ live) {o : ℕ} (ho : o < x.2) :
    ∀ a ∈ l, x.1 + o ∉ header a := by
  rintro a ha ⟨hlow, hhigh⟩
  obtain ⟨c, hc, sz, hv, hxc, -, hn⟩ := hs.block x hx
  by_cases hca : c = a
  · omega
  · obtain ⟨sza, fa, hva, -⟩ := hl.flag a ha
    have hin : x.1 + o ∈ bytes c (sz + memBlockMetaSize) := ⟨by omega, by omega⟩
    exact Set.disjoint_left.mp (hl.disjoint_of_ne hc ha hv hva hca) hin ⟨hlow, by omega⟩

/-- No byte belongs to two allocations. -/
theorem eq_of_shared {s : Process} {live : List (ℕ × ℕ)} (hl : Layout s l)
    (hs : Serves s l live) (hx : x ∈ live) (hy : y ∈ live) {o o' : ℕ} (ho : o < x.2)
    (ho' : o' < y.2) (h : x.1 + o = y.1 + o') : x.1 = y.1 := by
  obtain ⟨c, hc, sz, hv, hxc, -, hn⟩ := hs.block x hx
  obtain ⟨d, hd, sz', hv', hyd, -, hn'⟩ := hs.block y hy
  by_contra hne
  have hin : x.1 + o ∈ bytes c (sz + memBlockMetaSize) := ⟨by omega, by omega⟩
  exact Set.disjoint_left.mp (hl.disjoint_of_ne hc hd hv hv' (by omega)) hin ⟨by omega, by omega⟩

theorem Refines.layout (h : Refines r u l) (hu : Malloc.system.Reachable u) :
    Layout u.proc l ∧ Serves u.proc l u.live := by
  obtain ⟨l', hl, hs⟩ := inv_of_reachable hu
  rw [h.chain.unique hl.chain]
  exact ⟨hl, hs⟩

theorem Refines.malloc (h : Refines r u l) (hu : Malloc.system.Reachable u) {sz : ℕ}
    {answer : Option ℕ} {last fuel p : ℕ} {s : RawProcess} (hsz : sz + memBlockMetaSize < 2 ^ 63)
    (hsbrk : ∀ a, answer = some a → Unused r.proc (sz + memBlockMetaSize) a)
    (hcall : myMalloc fuel answer last sz r.proc = some (p, s)) :
    ∃ u' l', Malloc.system.Reachable u' ∧
      Refines ⟨s, if p = NULL then r.live else (p, sz) :: r.live,
        Function.update r.stored p fun _ => none⟩ u' l' := by
  obtain ⟨hl, hs⟩ := h.layout hu
  have hfresh : ∀ a, answer = some a → Fresh u.proc (sz + memBlockMetaSize) a :=
    fun a ha => (hsbrk a ha).fresh h.image
  obtain ⟨fuel', s', l', hrun, hchain, himage, hframe⟩ := h.image.malloc hl hsz hfresh hcall
  have hu' := hu.next (.malloc sz answer last fuel' hsz hfresh hrun)
  refine ⟨_, l', hu', hchain, himage, by rw [h.live], ?_⟩
  intro x hx o ho v hv
  dsimp only at hx hv ⊢
  by_cases hxp : x.1 = p
  · simp [hxp] at hv
  · have hx' : x ∈ r.live := by
      split_ifs at hx
      · exact hx
      · exact (List.mem_cons.mp hx).resolve_left fun hxe => hxp (congrArg Prod.fst hxe)
    rw [Function.update_of_ne hxp] at hv
    rw [h.live] at hx
    obtain ⟨l'', hl', hs'⟩ := inv_of_reachable hu'
    obtain rfl := hchain.unique hl'.chain
    exact (hframe _ (not_mem_header hl' hs' hx ho)).trans (h.kept x hx' o ho v hv)

theorem Refines.free (h : Refines r u l) (hu : Malloc.system.Reachable u) (hx : x ∈ r.live) :
    ∃ s u', myFree x.1 r.proc = some s ∧ Malloc.system.Reachable u' ∧
      Refines ⟨s, r.live.erase x, r.stored⟩ u' l := by
  obtain ⟨hl, hs⟩ := h.layout hu
  have hlive := h.live ▸ hx
  obtain ⟨a, ha, c, hc, hocc, hxa, -, hbound⟩ := live_header hl hs hlive
  obtain rfl := Option.some.inj (hc.symm.trans (h.image.agree a ha))
  obtain ⟨b', s', hfree, hrun, hchain, himage, hframe⟩ := h.image.free hl ha hocc hbound
  rw [← hxa] at hfree hrun
  refine ⟨b', _, hfree, hu.next (.free hlive hrun), hchain, himage, by rw [h.live], ?_⟩
  intro y hy o ho v hv
  have hy' := List.mem_of_mem_erase hy
  exact (hframe _ (not_mem_header hl hs (h.live ▸ hy') ho)).trans (h.kept y hy' o ho v hv)

theorem Refines.store (h : Refines r u l) (hu : Malloc.system.Reachable u) (hx : x ∈ r.live)
    {o : ℕ} (ho : o < x.2) (v : UInt8) :
    Refines ⟨{ r.proc with mem := r.proc.mem.store (x.1 + o) [v] }, r.live,
      Function.update r.stored x.1 (Function.update (r.stored x.1) o (some v))⟩ u l := by
  obtain ⟨hl, hs⟩ := h.layout hu
  have hx' := h.live ▸ hx
  refine ⟨h.chain, ⟨h.image.head, h.image.granted, fun a ha => ?_⟩, h.live, ?_⟩
  · have hfar := not_mem_header hl hs hx' ho a ha
    rw [header, bytes, Set.mem_Ico] at hfar
    rw [headerAt_store (by simp only [List.length_singleton]; omega)]
    exact h.image.agree a ha
  · intro y hy o' ho' w hw
    dsimp only at hw ⊢
    by_cases hsame : y.1 + o' = x.1 + o
    · have hyx := eq_of_shared hl hs (h.live ▸ hy) hx' ho' ho hsame
      obtain rfl : o' = o := by omega
      rw [hyx, Function.update_self, Function.update_self, Option.some.injEq] at hw
      simp [hsame, Memory.store, hw]
    · rw [r.proc.mem.store_outside (by simp only [List.length_singleton]; omega)]
      refine h.kept y hy o' ho' w ?_
      by_cases hyx : y.1 = x.1
      · rwa [hyx, Function.update_self, Function.update_of_ne (by omega), ← hyx] at hw
      · rwa [Function.update_of_ne hyx] at hw

theorem refines_of_reachable (h : system.Reachable r) :
    ∃ u l, Malloc.system.Reachable u ∧ Refines r u l := by
  refine h.invariant (fun r => ∃ u l, Malloc.system.Reachable u ∧ Refines r u l) ?_ ?_
  · rintro r ⟨hhead, hgranted, hlive⟩
    refine ⟨_, [], .start rfl, rfl, ⟨hhead, hgranted, by simp [Agree]⟩, hlive, ?_⟩
    rw [hlive]
    simp
  · rintro r r' - ⟨u, l, hu, href⟩ hstep
    cases hstep with
    | malloc sz answer last fuel hsz hsbrk hcall => exact href.malloc hu hsz hsbrk hcall
    | free hlive hcall =>
        obtain ⟨s, u', hfree, hu', href'⟩ := href.free hu hlive
        obtain rfl := Option.some.inj (hcall.symm.trans hfree)
        exact ⟨u', l, hu', href'⟩
    | store o v hlive ho => exact ⟨u, l, hu, href.store hu hlive ho v⟩

theorem exists_myMalloc (h : Refines r u l) (answer : Option ℕ) (last sz : ℕ) :
    ∃ fuel p s, myMalloc fuel answer last sz r.proc = some (p, s) := by
  have hrun := run_findFreeBlock_of_agree h.chain h.image.agree sz (l.length + 1) last
  rw [run_findFreeBlock h.chain sz _ last (by omega), ← h.image.head] at hrun
  cases hfind : findFreeBlock r.proc.mem sz (l.length + 1) r.proc.memBlockList last with
  | none => simp [hfind] at hrun
  | some q =>
      have hsome : (myMalloc (l.length + 1) answer last sz r.proc).isSome := by
        unfold myMalloc
        rw [hfind]
        split_ifs with hzero
        · rfl
        · dsimp only [Option.bind_eq_bind, Option.bind_some]
          split_ifs <;> rfl
      obtain ⟨⟨p, s⟩, hs⟩ := Option.isSome_iff_exists.mp hsome
      exact ⟨_, p, s, hs⟩

/-- Stores of the caller into its allocations never damage the list: in every run the bytes hold
the blocks of a run of the allocator alone with the same allocations, so that every further
`myMalloc` returns and every `myFree` of an allocation passes its assertions. -/
theorem list_survives_stores (h : system.Reachable r) :
    (∃ u blocks, Malloc.system.Reachable u ∧ u.live = r.live ∧
      Chain u.proc.next NULL r.proc.memBlockList blocks ∧
      ∀ a ∈ blocks, u.proc.mem a = some (headerAt r.proc.mem a)) ∧
    (∀ answer last sz, ∃ fuel p s, myMalloc fuel answer last sz r.proc = some (p, s)) ∧
    ∀ x ∈ r.live, ∃ s, myFree x.1 r.proc = some s := by
  obtain ⟨u, l, hu, href⟩ := refines_of_reachable h
  refine ⟨⟨u, l, hu, href.live.symm, href.image.head ▸ href.chain, href.image.agree⟩,
    exists_myMalloc href, fun x hx => ?_⟩
  obtain ⟨s, -, hfree, -⟩ := href.free hu hx
  exact ⟨s, hfree⟩

/-- A byte that the caller stored in an allocation is there until it stores another one at this
place or frees the allocation, whatever was allocated, freed and stored elsewhere in between. -/
theorem stored_byte_kept (h : system.Reachable r) (hx : x ∈ r.live) {o : ℕ} (ho : o < x.2)
    {v : UInt8} (hv : r.stored x.1 o = some v) : r.proc.mem (x.1 + o) = v := by
  obtain ⟨u, l, -, href⟩ := refines_of_reachable h
  exact href.kept x hx o ho v hv

end Runs

/-- Two allocations, a store into each, and a free of the second one. -/
theorem store_run : ∃ r, system.Reachable r ∧ r.live = [(4120, 2)] ∧
    r.stored 4120 1 = some 7 := by
  have h₀ : system.Reachable ⟨⟨NULL, fun _ => 170, []⟩, [], fun _ _ => none⟩ :=
    .start ⟨rfl, rfl, rfl⟩
  have h₁ := h₀.next (.malloc 2 (some 4096) 0 1 (by decide)
    (by rintro a ⟨⟩; exact ⟨by decide, by decide, by simp⟩) rfl)
  have h₂ := h₁.next (.store 1 7 (x := (4120, 2)) (.head _) (by decide))
  have h₃ := h₂.next (.malloc 1 (some 4122) 0 2 (by decide)
    (by
      rintro a ⟨⟩
      refine ⟨by decide, by decide, ?_⟩
      intro g hg
      obtain rfl : g = (4096, 26) := List.mem_singleton.mp hg
      exact (bytes_disjoint (by decide)).symm) rfl)
  have h₄ := h₃.next (.store 0 9 (x := (4146, 1)) (.head _) (by decide))
  have h₅ := h₄.next (.free (x := (4146, 1)) (.head _) rfl)
  exact ⟨_, h₅, rfl, rfl⟩

theorem list_survives_stores_two : ∃ r, system.Reachable r ∧ r.live = [(4120, 2)] ∧
    ∃ s, myFree 4120 r.proc = some s := by
  obtain ⟨r, hr, hlive, -⟩ := store_run
  exact ⟨r, hr, hlive, (list_survives_stores hr).2.2 (4120, 2) (by simp [hlive])⟩

theorem stored_byte_kept_two : ∃ r, system.Reachable r ∧ r.stored 4120 1 = some 7 ∧
    r.proc.mem 4121 = 7 := by
  obtain ⟨r, hr, hlive, hstored⟩ := store_run
  exact ⟨r, hr, hstored, stored_byte_kept (x := (4120, 2)) hr (by simp [hlive]) (by decide) hstored⟩

end TlpiExercises.MallocBytes
