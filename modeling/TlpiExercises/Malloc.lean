import TlpiExercises.PointerChain

/-!
# The first-fit allocator of the memory allocation chapter

`myMalloc` and `myFree` keep a list of block headers threaded through the
memory obtained from `sbrk`. Addresses count bytes, a header is read and
written as one record at its start address, and dereferencing an address that
holds no header stops the call with a fault. Each call runs in a state monad
whose error result keeps the state, so that a failed assertion can be compared
with the state before the call.

The kernel is a parameter: every call is given the answer `sbrk` would return.
-/
namespace TlpiExercises.Malloc

abbrev NULL : ℕ := 0

/-- `struct memBlockMeta`. -/
structure MemBlockMeta where
  size : ℕ
  next : ℕ
  occupied : ℤ
  deriving DecidableEq, Repr

/-- `MEM_BLOCK_META_SIZE`: a `size_t`, a pointer and a padded `int`. -/
abbrev memBlockMetaSize : ℕ := 24

/-- The allocator's memory. `granted` records the start address and the
increment of every successful `sbrk`, oldest first. -/
structure Process where
  memBlockList : ℕ
  mem : ℕ → Option MemBlockMeta
  granted : List (ℕ × ℤ)

/-- Ways a call ends without returning. -/
inductive Stop where
  | fault (p : ℕ)
  | assertion
  | fuel
  deriving DecidableEq, Repr

/-- A computation on the allocator's memory. -/
abbrev Call (α : Type) := EStateM Stop Process α

namespace Process

/-- The process before the first call: an empty list and no header anywhere. -/
def initial : Process := ⟨NULL, fun _ => none, []⟩

/-- The successor field of the header at an address. -/
def next (s : Process) (p : ℕ) : Option ℕ := (s.mem p).map MemBlockMeta.next

def put (s : Process) (p : ℕ) (b : MemBlockMeta) : Process :=
  { s with mem := Function.update s.mem p (some b) }

@[simp] theorem put_mem_self (s : Process) (p : ℕ) (b : MemBlockMeta) :
    (s.put p b).mem p = some b := by simp [put]

theorem put_mem_of_ne (s : Process) {p q : ℕ} (b : MemBlockMeta) (h : q ≠ p) :
    (s.put p b).mem q = s.mem q := by simp [put, h]

theorem next_eq_some {s : Process} {p q : ℕ} (h : s.next p = some q) :
    ∃ b, s.mem p = some b ∧ b.next = q := by
  simpa [next] using h

/-- What the list shows of the header at an address: its size and its flag. -/
def view (s : Process) (p : ℕ) : Option (ℕ × ℤ) :=
  (s.mem p).map fun b => (b.size, b.occupied)

theorem view_eq_some {s : Process} {p : ℕ} {sz : ℕ} {flag : ℤ}
    (h : s.view p = some (sz, flag)) :
    ∃ b, s.mem p = some b ∧ b.size = sz ∧ b.occupied = flag := by
  simpa [view] using h

theorem next_put (s : Process) (p : ℕ) (b : MemBlockMeta) :
    (s.put p b).next = Function.update s.next p (some b.next) := by
  funext q
  by_cases h : q = p
  · subst h; simp [next]
  · simp [next, put_mem_of_ne s b h, h]

theorem view_put (s : Process) (p : ℕ) (b : MemBlockMeta) :
    (s.put p b).view = Function.update s.view p (some (b.size, b.occupied)) := by
  funext q
  by_cases h : q = p
  · subst h; simp [view]
  · simp [view, put_mem_of_ne s b h, h]

/-- Setting the flag of a block moves no link. -/
theorem next_put_occupied {s : Process} {p : ℕ} {b : MemBlockMeta} (h : s.mem p = some b)
    (flag : ℤ) : (s.put p { b with occupied := flag }).next = s.next := by
  rw [next_put]
  apply Function.update_eq_self_iff.mpr
  simp [next, h]

/-- Writing back what is already stored changes nothing. -/
theorem put_eq_self (s : Process) {p : ℕ} {b : MemBlockMeta} (h : s.mem p = some b) :
    s.put p b = s := by
  simp only [put, ← h, Function.update_eq_self]

end Process

/-- Dereference a header pointer. -/
def load (p : ℕ) : Call MemBlockMeta := fun s =>
  match s.mem p with
  | some b => .ok b s
  | none => .error (.fault p) s

/-- Overwrite the header at an address. -/
def store (p : ℕ) (b : MemBlockMeta) : Call Unit := fun s => .ok () (s.put p b)

theorem run_load {s : Process} {p : ℕ} {b : MemBlockMeta} (h : s.mem p = some b) :
    (load p).run s = .ok b s := by
  simp [load, EStateM.run, h]

theorem run_load_none {s : Process} {p : ℕ} (h : s.mem p = none) :
    (load p).run s = .error (.fault p) s := by
  simp [load, EStateM.run, h]

@[simp] theorem run_store (s : Process) (p : ℕ) (b : MemBlockMeta) :
    (store p b).run s = .ok () (s.put p b) := rfl

/-- The list walk of `findFreeBlock`, first fit. The second result is the out
parameter `last`; on an empty list it keeps its uninitialised value. -/
def findFreeBlock (sz : ℕ) : ℕ → ℕ → ℕ → Call (ℕ × ℕ)
  | 0, _, _ => throw .fuel
  | fuel + 1, p, last =>
      if p = NULL then pure (NULL, last)
      else do
        let b ← load p
        if b.occupied = 0 ∧ sz ≤ b.size then pure (p, p)
        else findFreeBlock sz fuel b.next p

/-- The argument of `sbrk` in `requestSpace`: the `size_t` sum, read as the
signed 64-bit increment that `sbrk` takes. -/
def sbrkIncrement (sz : ℕ) : ℤ := Int.bmod ((sz + memBlockMetaSize : ℕ) : ℤ) (2 ^ 64)

/-- `sbrk` with the kernel's answer for this call; `none` is `(void*)-1`. -/
def sbrk (answer : Option ℕ) (increment : ℤ) : Call (Option ℕ) := fun s =>
  match answer with
  | none => .ok none s
  | some p => .ok (some p) { s with granted := s.granted ++ [(p, increment)] }

def requestSpace (answer : Option ℕ) (sz : ℕ) : Call ℕ := do
  match ← sbrk answer (sbrkIncrement sz) with
  | none => pure NULL
  | some p => do
      store p ⟨sz, NULL, 0⟩
      pure p

/-- The miss branch of `myMalloc`. Both links are written before the result of
`requestSpace` is tested, as in the source. -/
def growList (answer : Option ℕ) (sz : ℕ) (last : ℕ) : Call ℕ := do
  let s ← get
  if s.memBlockList ≠ NULL then
    let p ← requestSpace answer sz
    let t ← load last
    store last { t with next := p }
    pure p
  else
    let p ← requestSpace answer sz
    modify fun s => { s with memBlockList := p }
    pure p

/-- `last` is the value of the uninitialised local when the call starts. -/
def myMalloc (fuel : ℕ) (answer : Option ℕ) (last : ℕ) (sz : ℕ) : Call ℕ := do
  if sz = 0 then pure NULL
  else
    let s ← get
    let (p, last) ← findFreeBlock sz fuel s.memBlockList last
    let p ← if p = NULL then growList answer sz last else pure p
    if p = NULL then pure NULL
    else
      let b ← load p
      store p { b with occupied := 1 }
      pure (p + memBlockMetaSize)

/-- `(struct memBlockMeta*)ptr - 1`, wrapping at the bottom of the address space. -/
def headerOf (ptr : ℕ) : ℕ := (ptr + 2 ^ 64 - memBlockMetaSize) % 2 ^ 64

def myFree (ptr : ℕ) : Call Unit := do
  let p := headerOf ptr
  if p = NULL then throw .assertion
  else
    let b ← load p
    if b.occupied ≠ 1 then throw .assertion
    else store p { b with occupied := 0 }

/-- The test of the list walk: a free block that is large enough. -/
def fits (s : Process) (sz : ℕ) (p : ℕ) : Bool :=
  match s.mem p with
  | some b => b.occupied = 0 ∧ sz ≤ b.size
  | none => false

theorem fits_iff {s : Process} {sz : ℕ} {p : ℕ} {b : MemBlockMeta} (h : s.mem p = some b) :
    fits s sz p ↔ b.occupied = 0 ∧ sz ≤ b.size := by
  simp [fits, h]

/-- On a terminated list the walk returns the first fitting block, or NULL with
the true last block in `last`. -/
theorem run_findFreeBlock {s : Process} {p : ℕ} {l : List ℕ}
    (hl : Chain s.next NULL p l) (sz fuel : ℕ) (last : ℕ) (hfuel : l.length < fuel) :
    (findFreeBlock sz fuel p last).run s =
      .ok (match l.find? (fits s sz) with
        | some a => (a, a)
        | none => (NULL, l.getLastD last)) s := by
  induction l generalizing p fuel last with
  | nil =>
      obtain ⟨fuel, rfl⟩ := Nat.exists_eq_succ_of_ne_zero (by omega : fuel ≠ 0)
      simp [findFreeBlock, Chain.nil_iff.mp hl]
  | cons a l ih =>
      obtain ⟨rfl, ha, q, hn, hq⟩ := hl
      obtain ⟨b, hb, rfl⟩ := Process.next_eq_some hn
      obtain ⟨fuel, rfl⟩ := Nat.exists_eq_succ_of_ne_zero (by omega : fuel ≠ 0)
      simp only [findFreeBlock, if_neg ha, EStateM.run_bind, run_load hb, List.find?_cons]
      by_cases hfit : b.occupied = 0 ∧ sz ≤ b.size
      · simp [hfit, (fits_iff hb).mpr hfit]
      · have hnot : fits s sz p = false := by simpa using fun h => hfit ((fits_iff hb).mp h)
        -- the walk moves on with `last` set to the block just inspected
        rw [if_neg hfit, hnot, ih hq fuel p (by simpa using hfuel), List.getLastD_cons]

/-- A walk that ends is not changed by a larger bound on its iterations. -/
theorem run_findFreeBlock_mono {s t : Process} {sz fuel fuel' p last : ℕ} {r : ℕ × ℕ}
    (h : (findFreeBlock sz fuel p last).run s = .ok r t) (hle : fuel ≤ fuel') :
    (findFreeBlock sz fuel' p last).run s = .ok r t := by
  induction fuel generalizing fuel' p last with
  | zero => cases h
  | succ fuel ih =>
      obtain ⟨fuel', rfl⟩ := Nat.exists_eq_succ_of_ne_zero (by omega : fuel' ≠ 0)
      by_cases hp : p = NULL
      · simpa only [findFreeBlock, if_pos hp] using h
      cases hm : s.mem p with
      | none => simp [findFreeBlock, hp, run_load_none hm] at h
      | some b =>
          simp only [findFreeBlock, if_neg hp, EStateM.run_bind, run_load hm] at h ⊢
          split_ifs at h ⊢
          · exact h
          · exact ih h (by omega)

theorem run_myMalloc_mono {s t : Process} {answer : Option ℕ} {sz fuel fuel' p last : ℕ}
    (h : (myMalloc fuel answer last sz).run s = .ok p t) (hle : fuel ≤ fuel') :
    (myMalloc fuel' answer last sz).run s = .ok p t := by
  by_cases hsz : sz = 0
  · simpa only [myMalloc, if_pos hsz] using h
  simp only [myMalloc, if_neg hsz, EStateM.run_bind, EStateM.run_get] at h ⊢
  cases hw : (findFreeBlock sz fuel s.memBlockList last).run s with
  | error e t => simp [hw] at h
  | ok r t =>
      rw [run_findFreeBlock_mono hw hle]
      simpa only [hw] using h

theorem sbrkIncrement_eq {sz : ℕ} (h : sz + memBlockMetaSize < 2 ^ 63) :
    sbrkIncrement sz = ((sz + memBlockMetaSize : ℕ) : ℤ) := by
  apply Int.bmod_eq_of_le <;> omega

/-- The process after a successful `requestSpace`. -/
def Process.grown (s : Process) (a : ℕ) (sz : ℕ) : Process :=
  ({ s with granted := s.granted ++ [(a, sbrkIncrement sz)] }).put a ⟨sz, NULL, 0⟩

@[simp] theorem run_requestSpace_none (s : Process) (sz : ℕ) :
    (requestSpace none sz).run s = .ok NULL s := rfl

@[simp] theorem run_requestSpace_some (s : Process) (a : ℕ) (sz : ℕ) :
    (requestSpace (some a) sz).run s = .ok a (s.grown a sz) := rfl

section GrowList

variable {s s₁ : Process} {answer : Option ℕ} {sz : ℕ} {last q : ℕ}

/-- On an empty list the result of `requestSpace` becomes the head. -/
theorem run_growList_head (hnull : s.memBlockList = NULL)
    (hq : (requestSpace answer sz).run s = .ok q s₁) :
    (growList answer sz last).run s = .ok q { s₁ with memBlockList := q } := by
  simp only [growList, EStateM.run_bind, EStateM.run_get, hnull, ne_eq, not_true_eq_false,
    if_false, hq, EStateM.run_modify, EStateM.run_pure]

/-- On any other list it is linked behind `last`, NULL included. -/
theorem run_growList_link (hhead : s.memBlockList ≠ NULL)
    (hq : (requestSpace answer sz).run s = .ok q s₁) {b : MemBlockMeta}
    (hb : s₁.mem last = some b) :
    (growList answer sz last).run s = .ok q (s₁.put last { b with next := q }) := by
  simp only [growList, EStateM.run_bind, EStateM.run_get, if_pos hhead, hq, run_load hb,
    run_store, EStateM.run_pure]

end GrowList

section Calls

variable {s : Process} {l : List ℕ} {sz fuel : ℕ}

/-- A fitting block is marked and nothing else is written. -/
theorem run_myMalloc_hit (hl : Chain s.next NULL s.memBlockList l) (hsz : sz ≠ 0)
    (hfuel : l.length < fuel) (answer : Option ℕ) (last : ℕ) {a : ℕ} {b : MemBlockMeta}
    (ha : l.find? (fits s sz) = some a) (hb : s.mem a = some b) :
    (myMalloc fuel answer last sz).run s =
      .ok (a + memBlockMetaSize) (s.put a { b with occupied := 1 }) := by
  have hne : a ≠ NULL := hl.ne_null (List.mem_of_find?_eq_some ha)
  simp only [myMalloc, if_neg hsz, EStateM.run_bind, EStateM.run_get,
    run_findFreeBlock hl sz fuel last hfuel, ha, if_neg hne, EStateM.run_pure, run_load hb,
    run_store]

/-- Without a fitting block a refused `sbrk` leaves the whole process as it was:
the link written behind the last block is the NULL already there. -/
theorem run_myMalloc_refused (hl : Chain s.next NULL s.memBlockList l) (hsz : sz ≠ 0)
    (hfuel : l.length < fuel) (last : ℕ) (hnone : l.find? (fits s sz) = none) :
    (myMalloc fuel none last sz).run s = .ok NULL s := by
  have hgrow : (growList none sz (l.getLastD last)).run s = .ok NULL s := by
    rcases List.eq_nil_or_concat' l with rfl | ⟨l, t, rfl⟩
    · have hnull : s.memBlockList = NULL := hl
      rw [run_growList_head hnull (run_requestSpace_none s sz), ← hnull]
    · have hhead : s.memBlockList ≠ NULL := by
        intro h
        simpa using hl.head_eq_null_iff.mp h
      obtain ⟨b, hb, hnext⟩ := Process.next_eq_some hl.next_last
      have hsame : s.put t { b with next := NULL } = s := by
        rw [← hnext]
        exact s.put_eq_self hb
      rw [List.getLastD_concat, run_growList_link hhead (run_requestSpace_none s sz) hb, hsame]
  simp only [myMalloc, if_neg hsz, EStateM.run_bind, EStateM.run_get,
    run_findFreeBlock hl sz fuel last hfuel, hnone, if_true, hgrow, EStateM.run_pure]

/-- A new block behind the last one of the list. -/
theorem chain_grown {t a : ℕ} {b : MemBlockMeta} (hl : Chain s.next NULL s.memBlockList (l ++ [t]))
    (ha : a ≠ NULL) (hfresh : a ∉ l ++ [t]) (sz : ℕ) :
    Chain ((s.grown a sz).put t { b with next := a }).next NULL s.memBlockList (l ++ [t] ++ [a]) := by
  have hta : t ≠ a := by rintro rfl; simp at hfresh
  have hnext : ((s.grown a sz).put t { b with next := a }).next =
      Function.update (Function.update s.next a (some NULL)) t (some a) := by
    rw [Process.next_put, Process.grown, Process.next_put]
    rfl
  rw [hnext, List.append_assoc]
  refine hl.link_last ha ?_ (by simp) (by simp [hta.symm])
  intro x hx
  have hxt : x ≠ t := by
    rintro rfl
    exact (List.nodup_append.mp hl.nodup).2.2 x hx x (by simp) rfl
  have hxa : x ≠ a := by rintro rfl; simp [hx] at hfresh
  simp [hxt, hxa]

/-- Linking a block to a new one does not change its size and its flag. -/
theorem view_grown {t a : ℕ} {b : MemBlockMeta} (hb : s.mem t = some b) (hta : t ≠ a) (sz : ℕ) :
    ((s.grown a sz).put t { b with next := a }).view =
      Function.update s.view a (some (sz, 0)) := by
  have hview : s.view t = some (b.size, b.occupied) := by simp [Process.view, hb]
  rw [Process.view_put, Process.grown, Process.view_put, Function.update_comm hta.symm, ← hview]
  exact congrArg (Function.update · a _) (Function.update_eq_self t s.view)

/-- The appended block is linked and terminated, with its flag still clear. -/
theorem run_growList_append (hl : Chain s.next NULL s.memBlockList l) (sz : ℕ) (last : ℕ)
    {a : ℕ} (ha : a ≠ NULL) (hfresh : a ∉ l) :
    ∃ s₁, (growList (some a) sz (l.getLastD last)).run s = .ok a s₁ ∧
      Chain s₁.next NULL s₁.memBlockList (l ++ [a]) ∧
      s₁.view = Function.update s.view a (some (sz, 0)) ∧ s₁.mem a = some ⟨sz, NULL, 0⟩ ∧
      s₁.granted = s.granted ++ [(a, sbrkIncrement sz)] := by
  have hreq := run_requestSpace_some s a sz
  rcases List.eq_nil_or_concat' l with rfl | ⟨l, t, rfl⟩
  · have hnull : s.memBlockList = NULL := hl
    refine ⟨_, run_growList_head hnull hreq, ?_, ?_, ?_, rfl⟩
    · refine ⟨rfl, ha, NULL, ?_, rfl⟩
      simp [Process.grown, Process.next]
    · exact Process.view_put _ a _
    · exact Process.put_mem_self _ a _
  · have hhead : s.memBlockList ≠ NULL := by
      intro h
      simpa using hl.head_eq_null_iff.mp h
    have hta : t ≠ a := by rintro rfl; simp at hfresh
    obtain ⟨b, hb, hnext⟩ := Process.next_eq_some hl.next_last
    have hb₁ : (s.grown a sz).mem t = some b := by
      rw [Process.grown, Process.put_mem_of_ne _ _ hta]
      exact hb
    rw [List.getLastD_concat]
    refine ⟨_, run_growList_link hhead hreq hb₁, chain_grown hl ha hfresh sz,
      view_grown hb hta sz, ?_, rfl⟩
    rw [Process.put_mem_of_ne _ _ hta.symm]
    exact Process.put_mem_self _ a _

/-- Without a fitting block a granted `sbrk` puts one occupied block of the
requested size behind the last one. -/
theorem run_myMalloc_grow (hl : Chain s.next NULL s.memBlockList l) (hsz : sz ≠ 0)
    (hfuel : l.length < fuel) (last : ℕ) (hnone : l.find? (fits s sz) = none)
    {a : ℕ} (ha : a ≠ NULL) (hfresh : a ∉ l) :
    ∃ s', (myMalloc fuel (some a) last sz).run s = .ok (a + memBlockMetaSize) s' ∧
      Chain s'.next NULL s'.memBlockList (l ++ [a]) ∧
      s'.view = Function.update s.view a (some (sz, 1)) ∧
      s'.granted = s.granted ++ [(a, sbrkIncrement sz)] := by
  obtain ⟨s₁, hgrow, hchain, hview, hmem, hgranted⟩ := run_growList_append hl sz last ha hfresh
  refine ⟨s₁.put a ⟨sz, NULL, 1⟩, ?_, ?_, ?_, hgranted⟩
  · simp only [myMalloc, if_neg hsz, EStateM.run_bind, EStateM.run_get,
      run_findFreeBlock hl sz fuel last hfuel, hnone, if_true, hgrow, if_neg ha, run_load hmem,
      run_store, EStateM.run_pure]
  · have hnext : (s₁.put a ⟨sz, NULL, 1⟩).next = s₁.next := Process.next_put_occupied hmem 1
    rw [hnext]
    exact hchain
  · rw [Process.view_put, hview, Function.update_idem]

/-- What a call does on a well formed list: it returns NULL with nothing changed, marks a
block that fits, or appends the block `sbrk` granted. -/
theorem run_myMalloc_cases (hl : Chain s.next NULL s.memBlockList l) (hfuel : l.length < fuel)
    (answer : Option ℕ) (last : ℕ) (hnew : ∀ a, answer = some a → a ≠ NULL ∧ a ∉ l) :
    ((myMalloc fuel answer last sz).run s = .ok NULL s ∧ (sz = 0 ∨ answer = none)) ∨
      (sz ≠ 0 ∧ ∃ a ∈ l, ∃ b, s.mem a = some b ∧ fits s sz a ∧
        (myMalloc fuel answer last sz).run s =
          .ok (a + memBlockMetaSize) (s.put a { b with occupied := 1 })) ∨
      (sz ≠ 0 ∧ (∀ c ∈ l, ¬ fits s sz c) ∧ ∃ a, answer = some a ∧
        ∃ s', (myMalloc fuel answer last sz).run s = .ok (a + memBlockMetaSize) s' ∧
          Chain s'.next NULL s'.memBlockList (l ++ [a]) ∧
          s'.view = Function.update s.view a (some (sz, 1)) ∧
          s'.granted = s.granted ++ [(a, sbrkIncrement sz)]) := by
  by_cases hsz : sz = 0
  · refine .inl ⟨?_, .inl hsz⟩
    rw [myMalloc, if_pos hsz, EStateM.run_pure]
  cases hfind : l.find? (fits s sz) with
  | some a =>
      have ha := List.mem_of_find?_eq_some hfind
      obtain ⟨b, hb, -⟩ : ∃ b, s.mem a = some b ∧ _ :=
        Process.next_eq_some (Option.eq_some_of_isSome (hl.next_isSome ha))
      exact .inr (.inl ⟨hsz, a, ha, b, hb, List.find?_some hfind,
        run_myMalloc_hit hl hsz hfuel answer last hfind hb⟩)
  | none =>
      cases answer with
      | none => exact .inl ⟨run_myMalloc_refused hl hsz hfuel last hfind, .inr rfl⟩
      | some a =>
          obtain ⟨hne, hnot⟩ := hnew a rfl
          refine .inr (.inr ⟨hsz, by simpa using List.find?_eq_none.mp hfind, a, rfl, ?_⟩)
          exact run_myMalloc_grow hl hsz hfuel last hfind hne hnot

end Calls

section Free

variable {s : Process} {a : ℕ} {b : MemBlockMeta}

theorem headerOf_payload (h : a + memBlockMetaSize ≤ 2 ^ 64) :
    headerOf (a + memBlockMetaSize) = a := by
  simp only [headerOf, memBlockMetaSize] at *
  omega

/-- An occupied block is cleared and nothing else is written. -/
theorem run_myFree_occupied (hmem : s.mem a = some b) (ha : a ≠ NULL)
    (hbound : a + memBlockMetaSize ≤ 2 ^ 64) (hocc : b.occupied = 1) :
    (myFree (a + memBlockMetaSize)).run s = .ok () (s.put a { b with occupied := 0 }) := by
  simp only [myFree, headerOf_payload hbound, if_neg ha, EStateM.run_bind, run_load hmem, hocc,
    ne_eq, not_true_eq_false, if_false, run_store]

/-- A block that is not occupied fails the assertion before anything is written. -/
theorem run_myFree_free (hmem : s.mem a = some b) (ha : a ≠ NULL)
    (hbound : a + memBlockMetaSize ≤ 2 ^ 64) (hocc : b.occupied ≠ 1) :
    (myFree (a + memBlockMetaSize)).run s = .error .assertion s := by
  simp only [myFree, headerOf_payload hbound, if_neg ha, EStateM.run_bind, run_load hmem, if_pos hocc,
    EStateM.run_throw]

end Free

end TlpiExercises.Malloc
