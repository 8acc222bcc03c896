import Mathlib
import TlpiExercises.Malloc
import TlpiExercises.Transition

/-!
# Whole runs of the allocator

A run interleaves calls of `myMalloc` and `myFree` in any order, with any
pattern of refused `sbrk` calls. Its state pairs the process with the list of
live allocations, which is what the caller may still use: each returned pointer
with the size that was asked for. The layout invariant says that the blocks of
the list are exactly the regions obtained from `sbrk`, each holding its header
and its payload and nothing else.
-/
namespace TlpiExercises.Malloc

/-- The `n` bytes from address `a`. -/
def bytes (a n : ℕ) : Set ℕ := Set.Ico a (a + n)

/-- The bytes handed out by one successful `sbrk`. -/
def region (g : ℕ × ℤ) : Set ℕ := bytes g.1 g.2.toNat

/-- The bytes the caller may use: `[p + 1, p + 1 + requested size)`. -/
def payload (x : ℕ × ℕ) : Set ℕ := bytes x.1 x.2

/-- The bytes of the header at an address. -/
def header (a : ℕ) : Set ℕ := bytes a memBlockMetaSize

theorem bytes_subset {a n b m : ℕ} (hl : b ≤ a) (hr : a + n ≤ b + m) : bytes a n ⊆ bytes b m :=
  Set.Ico_subset_Ico hl hr

theorem bytes_disjoint {a n b m : ℕ} (h : a + n ≤ b) : Disjoint (bytes a n) (bytes b m) := by
  rw [Set.disjoint_left]
  intro x hx hy
  exact absurd (hx.2.trans_le h) (not_lt.mpr hy.1)

/-- What a successful `sbrk(m)` promises: `m` bytes of the address space that no
earlier call handed out. -/
structure Fresh (s : Process) (m a : ℕ) : Prop where
  ne_null : a ≠ NULL
  bound : a + m ≤ 2 ^ 64
  disjoint : ∀ g ∈ s.granted, Disjoint (bytes a m) (region g)

/-- The process and the allocations the caller still holds. -/
structure Run where
  proc : Process
  live : List (ℕ × ℕ)

/-- One call. The kernel chooses the answer of `sbrk`, and the uninitialised
`last` holds anything. -/
inductive Step : Run → Run → Prop
  | malloc {r : Run} (sz : ℕ) (answer : Option ℕ) (last fuel : ℕ) {p : ℕ} {s : Process}
      (hsz : sz + memBlockMetaSize < 2 ^ 63)
      (hsbrk : ∀ a, answer = some a → Fresh r.proc (sz + memBlockMetaSize) a)
      (hcall : (myMalloc fuel answer last sz).run r.proc = .ok p s) :
      Step r ⟨s, if p = NULL then r.live else (p, sz) :: r.live⟩
  | free {r : Run} {x : ℕ × ℕ} {s : Process} (hlive : x ∈ r.live)
      (hcall : (myFree x.1).run r.proc = .ok () s) : Step r ⟨s, r.live.erase x⟩

/-- Every run starts with an empty list and nothing allocated. -/
def system : System Run where
  init r := r = ⟨Process.initial, []⟩
  step := Step

/-- The blocks `l` of the list are the granted regions, in order: each starts
with its header, and its size fills the rest of its region. -/
structure Layout (s : Process) (l : List ℕ) : Prop where
  chain : Chain s.next NULL s.memBlockList l
  flag : ∀ a ∈ l, ∃ sz flag, s.view a = some (sz, flag) ∧ (flag = 0 ∨ flag = 1)
  starts : s.granted.map Prod.fst = l
  filled : ∀ g ∈ s.granted, ∃ sz flag, s.view g.1 = some (sz, flag) ∧
    g.2 = ((sz + memBlockMetaSize : ℕ) : ℤ)
  separate : s.granted.Pairwise fun g h => Disjoint (region g) (region h)
  bound : ∀ g ∈ s.granted, g.1 + g.2.toNat ≤ 2 ^ 64

namespace Layout

variable {s : Process} {l : List ℕ}

theorem initial : Layout Process.initial [] where
  chain := rfl
  flag := by simp
  starts := rfl
  filled := by simp [Process.initial]
  separate := List.Pairwise.nil
  bound := by simp [Process.initial]

/-- The region of a block, found from its address. -/
theorem granted_of_mem (h : Layout s l) {a sz : ℕ} {flag : ℤ} (ha : a ∈ l)
    (hview : s.view a = some (sz, flag)) : (a, ((sz + memBlockMetaSize : ℕ) : ℤ)) ∈ s.granted := by
  rw [← h.starts] at ha
  obtain ⟨g, hg, rfl⟩ := List.mem_map.mp ha
  obtain ⟨sz', flag', hview', hlen⟩ := h.filled g hg
  obtain ⟨rfl, rfl⟩ : sz = sz' ∧ flag = flag' := by simpa [hview] using hview'
  rw [← hlen]
  exact hg

/-- Two blocks at different addresses occupy disjoint regions. -/
theorem disjoint_of_ne (h : Layout s l) {a b sza szb : ℕ} {fa fb : ℤ} (ha : a ∈ l) (hb : b ∈ l)
    (hva : s.view a = some (sza, fa)) (hvb : s.view b = some (szb, fb)) (hne : a ≠ b) :
    Disjoint (bytes a (sza + memBlockMetaSize)) (bytes b (szb + memBlockMetaSize)) := by
  have : Std.Symm fun g h : ℕ × ℤ => Disjoint (region g) (region h) :=
    ⟨fun _ _ hgh => hgh.symm⟩
  have hd := h.separate.forall (h.granted_of_mem ha hva)
    (h.granted_of_mem hb hvb) (fun he => hne (congrArg Prod.fst he))
  simpa only [region, Int.toNat_natCast] using hd

theorem bound_of_mem (h : Layout s l) {a sz : ℕ} {flag : ℤ} (ha : a ∈ l)
    (hview : s.view a = some (sz, flag)) : a + (sz + memBlockMetaSize) ≤ 2 ^ 64 := by
  simpa only [Int.toNat_natCast] using h.bound _ (h.granted_of_mem ha hview)

/-- A fresh region starts at no block of the list. -/
theorem not_mem_of_fresh (h : Layout s l) {m a : ℕ} (hm : 0 < m) (hf : Fresh s m a) : a ∉ l := by
  intro ha
  obtain ⟨sz, flag, hview, -⟩ := h.flag a ha
  have hd := hf.disjoint _ (h.granted_of_mem ha hview)
  have hleft : a ∈ bytes a m := ⟨le_rfl, by omega⟩
  have hright : a ∈ region (a, ((sz + memBlockMetaSize : ℕ) : ℤ)) := by
    refine ⟨le_rfl, ?_⟩
    simp only [Int.toNat_natCast, memBlockMetaSize]
    omega
  exact Set.disjoint_left.mp hd hleft hright

/-- Setting a flag of a listed block keeps the layout. -/
theorem setFlag (h : Layout s l) {a : ℕ} {b : MemBlockMeta} (hb : s.mem a = some b) {flag : ℤ}
    (hflag : flag = 0 ∨ flag = 1) : Layout (s.put a { b with occupied := flag }) l := by
  have hview : ∀ c sz f, s.view c = some (sz, f) →
      (s.put a { b with occupied := flag }).view c = some (sz, if c = a then flag else f) := by
    intro c sz f hc
    rw [Process.view_put]
    by_cases hca : c = a
    · subst hca
      obtain ⟨b', hb', rfl, -⟩ := Process.view_eq_some hc
      obtain rfl : b = b' := Option.some.inj (hb.symm.trans hb')
      simp
    · simp [hca, hc]
  refine ⟨?_, ?_, h.starts, ?_, h.separate, h.bound⟩
  · rw [Process.next_put_occupied hb]
    exact h.chain
  · intro c hc
    obtain ⟨sz, f, hv, hf⟩ := h.flag c hc
    refine ⟨sz, _, hview c sz f hv, ?_⟩
    split_ifs
    · exact hflag
    · exact hf
  · intro g hg
    obtain ⟨sz, f, hv, hlen⟩ := h.filled g hg
    exact ⟨sz, _, hview g.1 sz f hv, hlen⟩

/-- Appending a block in a fresh region keeps the layout. -/
theorem grow (h : Layout s l) {s' : Process} {a sz : ℕ} (hsz : sz + memBlockMetaSize < 2 ^ 63)
    (hf : Fresh s (sz + memBlockMetaSize) a)
    (hchain : Chain s'.next NULL s'.memBlockList (l ++ [a]))
    (hview : s'.view = Function.update s.view a (some (sz, 1)))
    (hgranted : s'.granted = s.granted ++ [(a, sbrkIncrement sz)]) : Layout s' (l ++ [a]) := by
  have hnew : a ∉ l := h.not_mem_of_fresh (by simp) hf
  have hold : ∀ c ∈ l, s'.view c = s.view c := by
    intro c hc
    have hne : c ≠ a := by
      rintro rfl
      exact hnew hc
    rw [hview, Function.update_of_ne hne]
  have hself : s'.view a = some (sz, 1) := by simp [hview]
  rw [sbrkIncrement_eq hsz] at hgranted
  refine ⟨hchain, ?_, ?_, ?_, ?_, ?_⟩
  · intro c hc
    rcases List.mem_append.mp hc with hc | hc
    · rw [hold c hc]
      exact h.flag c hc
    · obtain rfl := List.mem_singleton.mp hc
      exact ⟨sz, 1, hself, .inr rfl⟩
  · simp [hgranted, h.starts]
  · intro g hg
    rw [hgranted] at hg
    rcases List.mem_append.mp hg with hg | hg
    · rw [hold g.1 (h.starts ▸ List.mem_map_of_mem hg)]
      exact h.filled g hg
    · obtain rfl := List.mem_singleton.mp hg
      exact ⟨sz, 1, hself, rfl⟩
  · rw [hgranted, List.pairwise_append]
    refine ⟨h.separate, List.pairwise_singleton _ _, ?_⟩
    intro g hg k hk
    obtain rfl := List.mem_singleton.mp hk
    simpa only [region, Int.toNat_natCast] using (hf.disjoint g hg).symm
  · intro g hg
    rw [hgranted] at hg
    rcases List.mem_append.mp hg with hg | hg
    · exact h.bound g hg
    · obtain rfl := List.mem_singleton.mp hg
      simpa only [Int.toNat_natCast] using hf.bound

end Layout

/-- What a returning `myMalloc` can have done: nothing, marked a free block that
is large enough, or appended an occupied block in a fresh region. -/
theorem myMalloc_cases {s s' : Process} {l : List ℕ} (h : Layout s l) {answer : Option ℕ}
    {sz last fuel p : ℕ}
    (hsbrk : ∀ a, answer = some a → Fresh s (sz + memBlockMetaSize) a)
    (hcall : (myMalloc fuel answer last sz).run s = .ok p s') :
    (p = NULL ∧ s' = s) ∨
    (∃ a ∈ l, ∃ b, s.mem a = some b ∧ b.occupied = 0 ∧ 0 < sz ∧ sz ≤ b.size ∧
      p = a + memBlockMetaSize ∧ s' = s.put a { b with occupied := 1 }) ∨
    (∃ a, 0 < sz ∧ Fresh s (sz + memBlockMetaSize) a ∧ p = a + memBlockMetaSize ∧
      Chain s'.next NULL s'.memBlockList (l ++ [a]) ∧
      s'.view = Function.update s.view a (some (sz, 1)) ∧
      s'.granted = s.granted ++ [(a, sbrkIncrement sz)]) := by
  -- more iterations than blocks decide every walk
  have hmax := run_myMalloc_mono hcall (le_max_left fuel (l.length + 1))
  have hnew : ∀ a, answer = some a → a ≠ NULL ∧ a ∉ l := fun a ha =>
    ⟨(hsbrk a ha).ne_null, h.not_mem_of_fresh (by simp) (hsbrk a ha)⟩
  have hfuel : l.length < max fuel (l.length + 1) := by omega
  rcases run_myMalloc_cases h.chain hfuel answer last hnew with
    ⟨hrun, -⟩ | ⟨hsz, a, ha, b, hb, hfit, hrun⟩ | ⟨hsz, -, a, ha, t, hrun, ht⟩
  · rw [hrun] at hmax
    injection hmax with hp hs
    exact .inl ⟨hp.symm, hs.symm⟩
  · rw [hrun] at hmax
    injection hmax with hp hs
    have hfree := (fits_iff hb).mp hfit
    exact .inr (.inl ⟨a, ha, b, hb, hfree.1, by omega, hfree.2, hp.symm, hs.symm⟩)
  · rw [hrun] at hmax
    injection hmax with hp hs
    subst hs
    exact .inr (.inr ⟨a, by omega, hsbrk a ha, hp.symm, ht⟩)

/-- The caller's view: every live pointer is the payload of an occupied block
that is at least as large as the request, and no pointer is held twice. -/
structure Serves (s : Process) (l : List ℕ) (live : List (ℕ × ℕ)) : Prop where
  block : ∀ x ∈ live, ∃ a ∈ l, ∃ sz, s.view a = some (sz, 1) ∧
    x.1 = a + memBlockMetaSize ∧ 0 < x.2 ∧ x.2 ≤ sz
  distinct : (live.map Prod.fst).Nodup

/-- The invariant of every run. -/
def Inv (r : Run) : Prop := ∃ l, Layout r.proc l ∧ Serves r.proc l r.live

namespace Serves

variable {s s' : Process} {l l' : List ℕ} {live : List (ℕ × ℕ)}

/-- A block that was not occupied joins the live allocations. -/
theorem cons (h : Serves s l live) {a sz n : ℕ} (hsub : ∀ c ∈ l, c ∈ l') (ha : a ∈ l')
    (hfree : a ∈ l → ∀ k, s.view a ≠ some (k, 1))
    (hview : s'.view = Function.update s.view a (some (sz, 1))) (hn : 0 < n) (hle : n ≤ sz) :
    Serves s' l' ((a + memBlockMetaSize, n) :: live) := by
  have hold : ∀ x ∈ live, ∃ c ∈ l, c ≠ a ∧ ∃ k, s'.view c = some (k, 1) ∧
      x.1 = c + memBlockMetaSize ∧ 0 < x.2 ∧ x.2 ≤ k := by
    intro x hx
    obtain ⟨c, hc, k, hv, hx⟩ := h.block x hx
    have hca : c ≠ a := by
      rintro rfl
      exact hfree hc k hv
    exact ⟨c, hc, hca, k, by rw [hview, Function.update_of_ne hca, hv], hx⟩
  refine ⟨?_, List.nodup_cons.mpr ⟨?_, h.distinct⟩⟩
  · intro x hx
    rcases List.mem_cons.mp hx with rfl | hx
    · exact ⟨a, ha, sz, by simp [hview], rfl, hn, hle⟩
    · obtain ⟨c, hc, -, k, hk⟩ := hold x hx
      exact ⟨c, hsub c hc, k, hk⟩
  · intro hmem
    obtain ⟨x, hx, hxa⟩ := List.mem_map.mp hmem
    obtain ⟨c, -, hca, k, -, hxc, -⟩ := hold x hx
    exact hca (by simp only at hxa; omega)

/-- A freed allocation leaves the live ones and no other block changes. -/
theorem erase (h : Serves s l live) {a : ℕ} {x : ℕ × ℕ} {v : Option (ℕ × ℤ)} (hx : x ∈ live)
    (hxa : x.1 = a + memBlockMetaSize) (hview : s'.view = Function.update s.view a v) :
    Serves s' l (live.erase x) := by
  have hnodup : live.Nodup := h.distinct.of_map
  refine ⟨?_, (List.erase_sublist.map Prod.fst).nodup h.distinct⟩
  intro y hy
  obtain ⟨hyx, hy⟩ := hnodup.mem_erase_iff.mp hy
  obtain ⟨c, hc, k, hv, hyc, hk⟩ := h.block y hy
  have hca : c ≠ a := by
    rintro rfl
    exact hyx (List.inj_on_of_nodup_map h.distinct hy hx (hyc.trans hxa.symm))
  exact ⟨c, hc, k, by rw [hview, Function.update_of_ne hca, hv], hyc, hk⟩

end Serves

/-- A live allocation's block: its header, and the bounds `myFree` relies on. -/
theorem live_header {s : Process} {l : List ℕ} {live : List (ℕ × ℕ)} (h : Layout s l)
    (hs : Serves s l live) {x : ℕ × ℕ} (hx : x ∈ live) :
    ∃ a ∈ l, ∃ b, s.mem a = some b ∧ b.occupied = 1 ∧ x.1 = a + memBlockMetaSize ∧ a ≠ NULL ∧
      a + memBlockMetaSize ≤ 2 ^ 64 := by
  obtain ⟨a, ha, sz, hv, hxa, -⟩ := hs.block x hx
  obtain ⟨b, hb, -, hocc⟩ := Process.view_eq_some hv
  have hbound := h.bound_of_mem ha hv
  exact ⟨a, ha, b, hb, hocc, hxa, h.chain.ne_null ha, by omega⟩

theorem inv_initial : Inv ⟨Process.initial, []⟩ :=
  ⟨[], Layout.initial, by simp, List.nodup_nil⟩

/-- Every call keeps the invariant. -/
theorem inv_step {r r' : Run} (hi : Inv r) (hstep : Step r r') : Inv r' := by
  obtain ⟨l, hl, hs⟩ := hi
  cases hstep with
  | malloc sz answer last fuel hsz hsbrk hcall =>
      obtain ⟨rfl, rfl⟩ | ⟨a, ha, b, hb, hfree, hpos, hfit, rfl, rfl⟩ |
        ⟨a, hpos, hf, rfl, hchain, hview, hgranted⟩ := myMalloc_cases hl hsbrk hcall
      · exact ⟨l, hl, by simpa using hs⟩
      · refine ⟨l, hl.setFlag hb (.inr rfl), ?_⟩
        rw [if_neg (by simp)]
        refine hs.cons (fun c hc => hc) ha ?_ (Process.view_put _ a _) hpos hfit
        intro _ k hk
        obtain ⟨b', hb', -, hocc⟩ := Process.view_eq_some hk
        obtain rfl : b = b' := Option.some.inj (hb.symm.trans hb')
        omega
      · refine ⟨l ++ [a], hl.grow hsz hf hchain hview hgranted, ?_⟩
        rw [if_neg (by simp)]
        refine hs.cons (fun c hc => List.mem_append_left _ hc) (by simp) ?_ hview hpos le_rfl
        intro ha
        exact absurd ha (hl.not_mem_of_fresh (by simp) hf)
  | free hlive hcall =>
      obtain ⟨a, -, b, hb, hocc, hxa, hne, hbound⟩ := live_header hl hs hlive
      rw [hxa, run_myFree_occupied hb hne hbound hocc] at hcall
      injection hcall with _ hput
      subst hput
      exact ⟨l, hl.setFlag hb (.inl rfl), hs.erase hlive hxa (Process.view_put _ a _)⟩

theorem inv_of_reachable {r : Run} (h : system.Reachable r) : Inv r := by
  refine h.invariant Inv ?_ (fun _ _ _ hi hstep => inv_step hi hstep)
  rintro _ rfl
  exact inv_initial

/-- Heap safety: in every state of every run the payloads of the live
allocations are pairwise disjoint, each inside one granted region, none on a
header of the list, and each block is as large as the request it serves. -/
theorem live_allocations_safe {r : Run} (h : system.Reachable r) :
    r.live.Pairwise (fun x y => Disjoint (payload x) (payload y)) ∧
    (∀ x ∈ r.live, ∃ g ∈ r.proc.granted, payload x ⊆ region g) ∧
    ∃ blocks, Chain r.proc.next NULL r.proc.memBlockList blocks ∧
      (∀ x ∈ r.live, ∀ a ∈ blocks, Disjoint (payload x) (header a)) ∧
      (∀ x ∈ r.live, ∃ a ∈ blocks, ∃ b, r.proc.mem a = some b ∧
        x.1 = a + memBlockMetaSize ∧ x.2 ≤ b.size) := by
  obtain ⟨l, hl, hs⟩ := inv_of_reachable h
  refine ⟨?_, ?_, l, hl.chain, ?_, ?_⟩
  · have hne : r.live.Pairwise fun x y => x.1 ≠ y.1 := List.pairwise_map.mp hs.distinct
    refine hne.imp_of_mem ?_
    intro x y hx hy hxy
    obtain ⟨a, ha, sza, hva, hxa, -, hna⟩ := hs.block x hx
    obtain ⟨b, hb, szb, hvb, hyb, -, hnb⟩ := hs.block y hy
    exact (hl.disjoint_of_ne ha hb hva hvb (by omega)).mono
      (bytes_subset (by omega) (by omega)) (bytes_subset (by omega) (by omega))
  · intro x hx
    obtain ⟨a, ha, sz, hv, hxa, -, hn⟩ := hs.block x hx
    refine ⟨_, hl.granted_of_mem ha hv, bytes_subset (by simp [hxa]) ?_⟩
    simp only [Int.toNat_natCast]
    omega
  · intro x hx a ha
    obtain ⟨c, hc, sz, hv, hxc, -, hn⟩ := hs.block x hx
    by_cases hca : c = a
    · subst hca
      exact (bytes_disjoint (by simp [hxc])).symm
    · obtain ⟨sza, fa, hva, -⟩ := hl.flag a ha
      exact (hl.disjoint_of_ne hc ha hv hva hca).mono
        (bytes_subset (by omega) (by omega)) (bytes_subset le_rfl (by omega))
  · intro x hx
    obtain ⟨a, ha, sz, hv, hxa, -, hn⟩ := hs.block x hx
    obtain ⟨b, hb, rfl, -⟩ := Process.view_eq_some hv
    exact ⟨a, ha, b, hb, hxa, hn⟩

/-- A run of two allocations, a free of the first and a smaller allocation that
reuses its block. -/
theorem reuse_run : ∃ r, system.Reachable r ∧ r.live = [(4120, 5), (4154, 20)] := by
  have h₀ : system.Reachable ⟨Process.initial, []⟩ := .start rfl
  have h₁ := h₀.next (.malloc 10 (some 4096) 0 1 (by decide)
    (by rintro a ⟨⟩; exact ⟨by decide, by decide, by simp [Process.initial]⟩) rfl)
  have h₂ := h₁.next (.malloc 20 (some 4130) 0 2 (by decide)
    (by
      rintro a ⟨⟩
      refine ⟨by decide, by decide, ?_⟩
      intro g hg
      obtain rfl : g = (4096, 34) := List.mem_singleton.mp hg
      exact (bytes_disjoint (by decide)).symm) rfl)
  have h₃ := h₂.next (.free (x := (4120, 10)) (.tail _ (.head _)) rfl)
  have h₄ := h₃.next (.malloc 5 none 0 3 (by decide) (by simp) rfl)
  exact ⟨_, h₄, rfl⟩

theorem live_allocations_safe_reuse : ∃ r, system.Reachable r ∧ r.live = [(4120, 5), (4154, 20)] ∧
    r.live.Pairwise (fun x y => Disjoint (payload x) (payload y)) := by
  obtain ⟨r, hr, hlive⟩ := reuse_run
  exact ⟨r, hr, hlive, (live_allocations_safe hr).1⟩

end TlpiExercises.Malloc
