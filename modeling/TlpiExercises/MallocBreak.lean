import TlpiExercises.MallocHeap

/-!
# The allocator on the program break

`sbrk` adds a signed increment to the program break and returns the old break. Here its
answer follows from the break: it is granted if the kernel has the memory and the new
break is in the range the kernel keeps it in. `myMalloc` takes every `size_t`, so the sum
it passes on can wrap.
-/
namespace TlpiExercises.Malloc

/-- The addresses the kernel lets the break have, all of them positive as signed numbers. -/
structure Arena where
  start : ℕ
  limit : ℕ
  start_pos : 0 < start
  limit_lt : limit < 2 ^ 63

/-- What `sbrk` returns at this break. -/
def Arena.answer (A : Arena) (brk : ℕ) (available : Bool) (increment : ℤ) : Option ℕ :=
  if available ∧ A.start ≤ brk + increment ∧ brk + increment ≤ A.limit then some brk else none

/-- A call of `myMalloc` at this break. The walk over the list inspects no more blocks than
`sbrk` ever granted. -/
def mallocAt (A : Arena) (brk : ℕ) (available : Bool) (last : ℕ) (sz : UInt64) (s : Process) :
    EStateM.Result Stop Process ℕ :=
  (myMalloc (s.granted.length + 1) (A.answer brk available (sbrkIncrement sz.toNat)) last
    sz.toNat).run s

/-- The break is in its range, and everything granted is below it. -/
structure Below (A : Arena) (s : Process) (brk : ℕ) : Prop where
  start_le : A.start ≤ brk
  le_limit : brk ≤ A.limit
  granted : ∀ g ∈ s.granted, g.1 + g.2.toNat ≤ brk

theorem Arena.answer_eq_some {A : Arena} {brk a : ℕ} {available : Bool} {increment : ℤ}
    (h : A.answer brk available increment = some a) : a = brk ∧ brk + increment ≤ A.limit := by
  obtain ⟨hgrant, ha⟩ := Option.ite_none_right_eq_some.mp h
  exact ⟨(Option.some.inj ha).symm, hgrant.2.2⟩

section Call

variable {A : Arena} {s : Process} {l : List ℕ} {brk : ℕ}

theorem Below.end_le (hb : Below A s brk) (hl : Layout s l) {a n : ℕ} {flag : ℤ} (ha : a ∈ l)
    (hview : s.view a = some (n, flag)) : a + (n + memBlockMetaSize) ≤ brk := by
  have hle := hb.granted _ (hl.granted_of_mem ha hview)
  rwa [Int.toNat_natCast] at hle

theorem Below.not_mem (hb : Below A s brk) (hl : Layout s l) : brk ∉ l := by
  intro hmem
  obtain ⟨n, flag, hview, -⟩ := hl.flag brk hmem
  have hle := hb.end_le hl hmem hview
  simp only [memBlockMetaSize] at hle
  omega

theorem Below.of_granted (hb : Below A s brk) {s' : Process} (h : s'.granted = s.granted) :
    Below A s' brk :=
  ⟨hb.start_le, hb.le_limit, by rw [h]; exact hb.granted⟩

theorem Below.raise (hb : Below A s brk) {brk' : ℕ} (hle : brk ≤ brk') (hlimit : brk' ≤ A.limit) :
    Below A s brk' :=
  ⟨hb.start_le.trans hle, hlimit, fun g hg => (hb.granted g hg).trans hle⟩

theorem Below.grow (hb : Below A s brk) {s' : Process} {n : ℕ} (hlimit : brk + n ≤ A.limit)
    (h : s'.granted = s.granted ++ [(brk, (n : ℤ))]) : Below A s' (brk + n) := by
  refine ⟨hb.start_le.trans (Nat.le_add_right _ _), hlimit, ?_⟩
  intro g hg
  rw [h] at hg
  rcases List.mem_append.mp hg with hold | hnew
  · exact (hb.granted g hold).trans (Nat.le_add_right _ _)
  · rw [List.mem_singleton.mp hnew, Int.toNat_natCast]

/-- What `sbrk` grants at the break is new memory. -/
theorem Below.fresh (hb : Below A s brk) {available : Bool} {n a : ℕ}
    (hn : n + memBlockMetaSize < 2 ^ 63)
    (ha : A.answer brk available (sbrkIncrement n) = some a) :
    Fresh s (n + memBlockMetaSize) a := by
  obtain ⟨rfl, hlimit⟩ := Arena.answer_eq_some ha
  rw [sbrkIncrement_eq hn] at hlimit
  have hstart := A.start_pos
  have hle := hb.start_le
  have htop := A.limit_lt
  refine ⟨by simp only [NULL]; omega, by omega, ?_⟩
  intro g hg
  exact (bytes_disjoint (hb.granted g hg)).symm

/-- A call returns NULL with nothing changed, marks a block that fits, or has `sbrk` move
the break and puts the block there. -/
theorem mallocAt_cases (hl : Layout s l) (hb : Below A s brk) (available : Bool) (last : ℕ)
    (sz : UInt64) :
    (mallocAt A brk available last sz s = .ok NULL s ∧
        (sz.toNat = 0 ∨ A.answer brk available (sbrkIncrement sz.toNat) = none)) ∨
      (∃ a ∈ l, ∃ b, s.mem a = some b ∧ fits s sz.toNat a ∧
        mallocAt A brk available last sz s =
          .ok (a + memBlockMetaSize) (s.put a { b with occupied := 1 })) ∨
      (sz.toNat ≠ 0 ∧ (∀ a ∈ l, ¬ fits s sz.toNat a) ∧
        A.answer brk available (sbrkIncrement sz.toNat) = some brk ∧
        ∃ s', mallocAt A brk available last sz s = .ok (brk + memBlockMetaSize) s' ∧
          s'.view = Function.update s.view brk (some (sz.toNat, 1)) ∧
          s'.granted = s.granted ++ [(brk, sbrkIncrement sz.toNat)]) := by
  have hfuel : l.length < s.granted.length + 1 := by
    rw [← hl.starts, List.length_map]
    omega
  have hnew : ∀ a, A.answer brk available (sbrkIncrement sz.toNat) = some a →
      a ≠ NULL ∧ a ∉ l := by
    intro a ha
    obtain ⟨rfl, -⟩ := Arena.answer_eq_some ha
    have hstart := A.start_pos
    have hle := hb.start_le
    refine ⟨?_, hb.not_mem hl⟩
    simp only [NULL]
    omega
  rcases run_myMalloc_cases hl.chain hfuel _ last hnew with
    hnull | ⟨-, hhit⟩ | ⟨hsz, hfull, a, ha, s', hrun, -, hview, hgranted⟩
  · exact .inl hnull
  · exact .inr (.inl hhit)
  · obtain ⟨rfl, -⟩ := Arena.answer_eq_some ha
    exact .inr (.inr ⟨hsz, hfull, ha, s', hrun, hview, hgranted⟩)

end Call

/-- The range of the break in a small address space. -/
def smallArena : Arena := ⟨4096, 2 ^ 47, by decide, by decide⟩

end TlpiExercises.Malloc
