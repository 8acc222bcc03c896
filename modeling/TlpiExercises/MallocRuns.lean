import TlpiExercises.MallocBreak

/-!
# Runs of the allocator on the program break

The state of a run holds the break and every value `myMalloc` returned that was not freed
since, NULL included. As long as no wrapped increment is granted, a run is one of the runs
with fresh regions, so that their invariant describes the heap; what is new here is which of
the values the caller holds `myFree` can take, and where the blocks start.
-/
namespace TlpiExercises.Malloc

/-- The process, its break, and the values the caller holds with the sizes asked for. -/
structure Machine where
  proc : Process
  brk : ℕ
  held : List (ℕ × ℕ)

/-- A call, or a move of the break by another part of the program. -/
inductive Event where
  | malloc (sz : UInt64) (last : ℕ) (available : Bool)
  | free (x : ℕ × ℕ)
  | moved (brk : ℕ)
  deriving DecidableEq, Repr

/-- The break after the requests that were granted in between. -/
def breakAfter (brk : ℕ) (before after : List (ℕ × ℤ)) : ℕ :=
  (brk + ((after.drop before.length).map Prod.snd).sum).toNat

/-- One event. There is no next state when a call does not return, when the caller does not
hold the value, or when the break would leave its range. -/
def Machine.next (A : Arena) : Event → Machine → Option Machine
  | .malloc sz last available, m =>
      match mallocAt A m.brk available last sz m.proc with
      | .ok p s => some ⟨s, breakAfter m.brk m.proc.granted s.granted, (p, sz.toNat) :: m.held⟩
      | .error _ _ => none
  | .free x, m =>
      if x ∈ m.held then
        match (myFree x.1).run m.proc with
        | .ok _ s => some ⟨s, m.brk, m.held.erase x⟩
        | .error _ _ => none
      else none
  | .moved brk, m =>
      if m.brk ≤ brk ∧ brk ≤ A.limit then some { m with brk := brk } else none

/-- No wrapped increment is granted, and NULL is not freed. -/
def Sane (A : Arena) : Event → Machine → Prop
  | .malloc sz _ available, m =>
      sz.toNat + memBlockMetaSize < 2 ^ 63 ∨
        A.answer m.brk available (sbrkIncrement sz.toNat) = none
  | .free x, _ => x.1 ≠ NULL
  | .moved _, _ => True

/-- The start of the program, at any break. -/
def Machine.Starts (A : Arena) (m : Machine) : Prop :=
  ∃ brk, A.start ≤ brk ∧ brk ≤ A.limit ∧ m = ⟨Process.initial, brk, []⟩

/-- The allocations among the values held. -/
def Machine.run (m : Machine) : Run := ⟨m.proc, m.held.filter fun x => x.1 ≠ NULL⟩

/-- The heap of a run with fresh regions, below the break. -/
structure Machine.Refines (A : Arena) (m : Machine) : Prop where
  reachable : system.Reachable m.run
  below : Below A m.proc m.brk

section Steps

variable {A : Arena} {m m' : Machine}

@[simp] theorem breakAfter_self (brk : ℕ) (granted : List (ℕ × ℤ)) :
    breakAfter brk granted granted = brk := by
  simp [breakAfter]

theorem breakAfter_append (brk n : ℕ) (granted : List (ℕ × ℤ)) :
    breakAfter brk granted (granted ++ [(brk, (n : ℤ))]) = brk + n := by
  simp [breakAfter]
  omega

theorem Machine.run_null (s : Process) (brk n : ℕ) (held : List (ℕ × ℕ)) :
    Machine.run ⟨s, brk, (NULL, n) :: held⟩ = Machine.run ⟨s, brk, held⟩ := by
  simp [Machine.run]

theorem Machine.run_payload (s : Process) (brk a n : ℕ) (held : List (ℕ × ℕ)) :
    Machine.run ⟨s, brk, (a + memBlockMetaSize, n) :: held⟩ =
      ⟨s, if a + memBlockMetaSize = NULL then (Machine.run ⟨s, brk, held⟩).live
        else (a + memBlockMetaSize, n) :: (Machine.run ⟨s, brk, held⟩).live⟩ := by
  simp [Machine.run]

theorem Machine.mem_live {x : ℕ × ℕ} (hx : x ∈ m.held) (hne : x.1 ≠ NULL) : x ∈ m.run.live :=
  List.mem_filter.mpr ⟨hx, decide_eq_true hne⟩

theorem Machine.Refines.layout (h : m.Refines A) :
    ∃ l, Layout m.proc l ∧ Serves m.proc l m.run.live :=
  inv_of_reachable h.reachable

/-- What a call of `myMalloc` does to the break: nothing, or it gets the memory for a block
with its header. -/
theorem Machine.Refines.malloc (h : m.Refines A) {sz : UInt64} {last : ℕ} {available : Bool}
    (hok : Sane A (.malloc sz last available) m)
    (hnext : Machine.next A (.malloc sz last available) m = some m') :
    m'.Refines A ∧ ((m'.proc.granted = m.proc.granted ∧ m'.brk = m.brk) ∨
      ∃ n : ℕ, m'.proc.granted = m.proc.granted ++ [(m.brk, (n : ℤ))] ∧ m'.brk = m.brk + n) := by
  obtain ⟨l, hl, hs⟩ := h.layout
  have hcall : ∀ {p s}, mallocAt A m.brk available last sz m.proc = .ok p s →
      m' = ⟨s, breakAfter m.brk m.proc.granted s.granted, (p, sz.toNat) :: m.held⟩ := by
    intro p s hrun
    rw [Machine.next, hrun] at hnext
    exact (Option.some.inj hnext).symm
  have hstep : ∀ {a s}, sz.toNat + memBlockMetaSize < 2 ^ 63 →
      mallocAt A m.brk available last sz m.proc = .ok (a + memBlockMetaSize) s →
      system.Reachable m'.run := by
    intro a s hsz hrun
    rw [hcall hrun, Machine.run_payload]
    exact h.reachable.next (.malloc _ _ last _ hsz (fun _ => h.below.fresh hsz) hrun)
  rcases mallocAt_cases hl h.below available last sz with
    ⟨hrun, -⟩ | ⟨a, ha, b, hmem, hfit, hrun⟩ | ⟨-, -, hanswer, s, hrun, -, hgranted⟩
  · obtain rfl := hcall hrun
    rw [breakAfter_self]
    exact ⟨⟨by rw [Machine.run_null]; exact h.reachable, h.below⟩, .inl ⟨rfl, rfl⟩⟩
  · -- a block that fits was granted below the limit, so its size is small
    have hview : m.proc.view a = some (b.size, b.occupied) := by simp [Process.view, hmem]
    have hend := h.below.end_le hl ha hview
    have hlimit := h.below.le_limit
    have htop := A.limit_lt
    have hle := ((fits_iff hmem).mp hfit).2
    have hreach := hstep (by omega) hrun
    obtain rfl := hcall hrun
    exact ⟨⟨hreach, (breakAfter_self _ _).symm ▸ h.below.of_granted rfl⟩,
      .inl ⟨rfl, breakAfter_self _ _⟩⟩
  · have hsz : sz.toNat + memBlockMetaSize < 2 ^ 63 := by
      refine hok.resolve_right ?_
      rw [hanswer]
      simp
    have hreach := hstep hsz hrun
    obtain ⟨-, hlimit⟩ := Arena.answer_eq_some hanswer
    rw [sbrkIncrement_eq hsz] at hgranted hlimit
    obtain rfl := hcall hrun
    have hbrk : breakAfter m.brk m.proc.granted s.granted =
        m.brk + (sz.toNat + memBlockMetaSize) := by
      rw [hgranted]
      exact breakAfter_append _ _ _
    rw [hbrk] at hreach ⊢
    exact ⟨⟨hreach, h.below.grow (by omega) hgranted⟩, .inr ⟨_, hgranted, rfl⟩⟩

/-- Every event keeps the heap, and moves the break only by a granted request or from
outside. -/
theorem Machine.Refines.next (h : m.Refines A) {e : Event} (hok : Sane A e m)
    (hnext : Machine.next A e m = some m') :
    m'.Refines A ∧ ((m'.proc.granted = m.proc.granted ∧ (m'.brk = m.brk ∨ ∃ brk, e = .moved brk)) ∨
      ∃ n : ℕ, m'.proc.granted = m.proc.granted ++ [(m.brk, (n : ℤ))] ∧ m'.brk = m.brk + n) := by
  cases e with
  | malloc sz last available =>
      obtain ⟨href, ⟨hgranted, hbrk⟩ | hgrown⟩ := h.malloc hok hnext
      · exact ⟨href, .inl ⟨hgranted, .inl hbrk⟩⟩
      · exact ⟨href, .inr hgrown⟩
  | free x =>
      rw [Machine.next, Option.ite_none_right_eq_some] at hnext
      obtain ⟨hheld, hcall⟩ := hnext
      have hlive : x ∈ m.run.live := Machine.mem_live hheld hok
      obtain ⟨l, hl, hs⟩ := h.layout
      obtain ⟨a, -, b, hmem, hocc, hxa, hne, hbound⟩ := live_header hl hs hlive
      have hrun : (myFree x.1).run m.proc = .ok () (m.proc.put a { b with occupied := 0 }) := by
        rw [hxa]
        exact run_myFree_occupied hmem hne hbound hocc
      rw [hrun] at hcall
      obtain rfl := (Option.some.inj hcall).symm
      refine ⟨⟨?_, h.below.of_granted rfl⟩, .inl ⟨rfl, .inl rfl⟩⟩
      have hreach := h.reachable.next (.free hlive hrun)
      rwa [Machine.run, List.erase_filter] at hreach
  | moved brk =>
      obtain ⟨⟨hle, hlimit⟩, hcall⟩ := Option.ite_none_right_eq_some.mp hnext
      obtain rfl := (Option.some.inj hcall).symm
      exact ⟨⟨h.reachable, h.below.raise hle hlimit⟩, .inl ⟨rfl, .inr ⟨brk, rfl⟩⟩⟩

theorem Machine.Starts.refines (h : m.Starts A) : m.Refines A := by
  obtain ⟨brk, hstart, hlimit, rfl⟩ := h
  exact ⟨.start rfl, hstart, hlimit, by simp [Process.initial]⟩

theorem Machine.Refines.lt_of_mem (h : m.Refines A) {l : List ℕ} (hl : Layout m.proc l) {a : ℕ}
    (ha : a ∈ l) : a + memBlockMetaSize < 2 ^ 63 := by
  obtain ⟨n, flag, hview, -⟩ := hl.flag a ha
  have hend := h.below.end_le hl ha hview
  have hlimit := h.below.le_limit
  have htop := A.limit_lt
  omega

end Steps

section Freeing

/-- `myFree` returns, and it reads and writes the header of a block of the list and nothing
else. -/
def FreeOk (s : Process) (ptr : ℕ) : Prop :=
  ∃ blocks, Chain s.next NULL s.memBlockList blocks ∧ headerOf ptr ∈ blocks ∧
    ∃ s', (myFree ptr).run s = .ok () s' ∧ s'.memBlockList = s.memBlockList ∧
      s'.granted = s.granted ∧ ∀ q, q ≠ headerOf ptr → s'.mem q = s.mem q

/-- Of the values a caller holds in a run in which no wrapped increment is granted, `myFree`
can take all but NULL. -/
theorem free_ok_iff {A : Arena} {m : Machine}
    (h : (System.ofNextWhen (Machine.Starts A) (Machine.next A) (Sane A)).Reachable m)
    {x : ℕ × ℕ} (hx : x ∈ m.held) : FreeOk m.proc x.1 ↔ x.1 ≠ NULL := by
  have href : m.Refines A := by
    refine h.invariant (Machine.Refines A) (fun _ hinit => Machine.Starts.refines hinit) ?_
    rintro m m' - href ⟨e, hok, hnext⟩
    exact (href.next hok hnext).1
  obtain ⟨l, hl, hs⟩ := href.layout
  constructor
  · rintro ⟨blocks, hchain, hmem, -⟩ hnull
    rw [hchain.unique hl.chain] at hmem
    have hlow := href.lt_of_mem hl hmem
    rw [hnull] at hlow
    exact absurd hlow (by decide)
  · intro hne
    have hlive : x ∈ m.run.live := Machine.mem_live hx hne
    obtain ⟨a, ha, b, hmem, hocc, hxa, hnull, hbound⟩ := live_header hl hs hlive
    rw [FreeOk, hxa, headerOf_payload hbound]
    exact ⟨l, hl.chain, ha, _, run_myFree_occupied hmem hnull hbound hocc, rfl, rfl,
      fun q hq => Process.put_mem_of_ne _ _ hq⟩

/-- After a request of 10 bytes, the value it returned can be freed. -/
theorem free_ok_iff_ten : ∃ m : Machine, (4120, 10) ∈ m.held ∧ FreeOk m.proc 4120 := by
  have h₀ : (System.ofNextWhen (Machine.Starts smallArena) (Machine.next smallArena)
      (Sane smallArena)).Reachable ⟨Process.initial, 4096, []⟩ :=
    .start ⟨4096, by decide, by decide, rfl⟩
  have h₁ := h₀.next ⟨.malloc 10 0 true, .inl (by decide), rfl⟩
  exact ⟨_, .head _, (free_ok_iff h₁ (.head _)).mpr (by decide)⟩

/-- The NULL returned for a request of no bytes makes `myFree` read a header at the top of
the address space. -/
theorem free_null_faults :
    ∃ m, (System.ofNext (Machine.Starts smallArena) (Machine.next smallArena)).Reachable m ∧
      (NULL, 0) ∈ m.held ∧
      (myFree NULL).run m.proc = .error (.fault 18446744073709551592) m.proc := by
  have h₀ : (System.ofNext (Machine.Starts smallArena) (Machine.next smallArena)).Reachable
      ⟨Process.initial, 4096, []⟩ := .start ⟨4096, by decide, by decide, rfl⟩
  exact ⟨_, h₀.next ⟨.malloc 0 0 true, rfl⟩, .head _, rfl⟩

end Freeing

section Alignment

/-- The regions follow each other from `b` to `e` without a gap. -/
def Packed : ℕ → List (ℕ × ℤ) → ℕ → Prop
  | b, [], e => b = e
  | b, g :: gs, e => g.1 = b ∧ Packed (b + g.2.toNat) gs e

theorem Packed.append {b e : ℕ} {gs : List (ℕ × ℤ)} (h : Packed b gs e) (n : ℕ) :
    Packed b (gs ++ [(e, (n : ℤ))]) (e + n) := by
  induction gs generalizing b with
  | nil =>
      obtain rfl : b = e := h
      exact ⟨rfl, rfl⟩
  | cons g gs ih => exact ⟨h.1, ih h.2⟩

/-- Regions that follow each other from an aligned address are aligned exactly if the
lengths of all but the last are multiples of the alignment. -/
theorem Packed.aligned_iff {k b e : ℕ} {gs : List (ℕ × ℤ)} (h : Packed b gs e) (hb : k ∣ b) :
    (∀ g ∈ gs, k ∣ g.1) ↔ ∀ g ∈ gs.dropLast, k ∣ g.2.toNat := by
  induction gs generalizing b with
  | nil => simp
  | cons g gs ih =>
      obtain ⟨hg, hrest⟩ := h
      cases gs with
      | nil => simp [hg, hb]
      | cons g' gs =>
          have hnext : g'.1 = b + g.2.toNat := hrest.1
          rw [List.dropLast_cons_cons]
          constructor
          · intro hall
            have htail := (List.forall_mem_cons.mp hall).2
            have hlen : k ∣ g.2.toNat := (Nat.dvd_add_right hb).mp (hnext ▸ htail g' (by simp))
            exact List.forall_mem_cons.mpr ⟨hlen, (ih hrest (dvd_add hb hlen)).mp htail⟩
          · intro hall
            obtain ⟨hlen, htail⟩ := List.forall_mem_cons.mp hall
            exact List.forall_mem_cons.mpr ⟨hg ▸ hb, (ih hrest (dvd_add hb hlen)).mpr htail⟩

/-- The start of the program, at a break aligned to 16 bytes. -/
def Machine.StartsAligned (A : Arena) (m : Machine) : Prop :=
  ∃ brk, A.start ≤ brk ∧ brk ≤ A.limit ∧ 16 ∣ brk ∧ m = ⟨Process.initial, brk, []⟩

/-- Only `myMalloc` moves the break, and never by a wrapped increment. -/
def SaneAlone (A : Arena) (e : Event) (m : Machine) : Prop := Sane A e m ∧ ∀ brk, e ≠ .moved brk

theorem packed_of_reachable {A : Arena} {m : Machine}
    (h : (System.ofNextWhen (Machine.StartsAligned A) (Machine.next A) (SaneAlone A)).Reachable m) :
    m.Refines A ∧ ∃ b, 16 ∣ b ∧ Packed b m.proc.granted m.brk := by
  refine h.invariant (fun m => m.Refines A ∧ ∃ b, 16 ∣ b ∧ Packed b m.proc.granted m.brk) ?_ ?_
  · rintro _ ⟨brk, hstart, hlimit, haligned, rfl⟩
    exact ⟨Machine.Starts.refines ⟨brk, hstart, hlimit, rfl⟩, brk, haligned, rfl⟩
  · rintro m m' - ⟨href, b, hb, hpacked⟩ ⟨e, ⟨hok, halone⟩, hnext⟩
    obtain ⟨href', ⟨hgranted, hbrk | ⟨brk, hmoved⟩⟩ | ⟨n, hgranted, hbrk⟩⟩ := href.next hok hnext
    · exact ⟨href', b, hb, by rwa [hgranted, hbrk]⟩
    · exact absurd hmoved (halone brk)
    · exact ⟨href', b, hb, by rw [hgranted, hbrk]; exact hpacked.append n⟩

/-- In a run in which only `myMalloc` moves the break, the headers and the values held are
aligned to 8 bytes exactly as long as every block but the last one has a size that is a
multiple of 8. -/
theorem blocks_aligned_iff {A : Arena} {m : Machine}
    (h : (System.ofNextWhen (Machine.StartsAligned A) (Machine.next A) (SaneAlone A)).Reachable m) :
    ∃ blocks, Chain m.proc.next NULL m.proc.memBlockList blocks ∧
      (((∀ a ∈ blocks, 8 ∣ a) ∧ ∀ x ∈ m.held, 8 ∣ x.1) ↔
        ∀ a ∈ blocks.dropLast, ∃ b, m.proc.mem a = some b ∧ 8 ∣ b.size) := by
  obtain ⟨href, start, hstart, hpacked⟩ := packed_of_reachable h
  obtain ⟨l, hl, hs⟩ := href.layout
  have hheld : (∀ a ∈ l, 8 ∣ a) → ∀ x ∈ m.held, 8 ∣ x.1 := by
    intro hall x hx
    by_cases hnull : x.1 = NULL
    · rw [hnull]
      exact dvd_zero 8
    · obtain ⟨a, ha, -, -, hxa, -⟩ := hs.block x (Machine.mem_live hx hnull)
      rw [hxa]
      exact dvd_add (hall a ha) (by decide)
  have hheaders : (∀ a ∈ l, 8 ∣ a) ↔ ∀ g ∈ m.proc.granted, 8 ∣ g.1 := by
    rw [← hl.starts, List.forall_mem_map]
  have hsizes : (∀ a ∈ l.dropLast, ∃ b, m.proc.mem a = some b ∧ 8 ∣ b.size) ↔
      ∀ g ∈ m.proc.granted.dropLast, 8 ∣ g.2.toNat := by
    rw [← hl.starts, ← List.map_dropLast, List.forall_mem_map]
    refine forall₂_congr fun g hg => ?_
    obtain ⟨n, flag, hview, hlen⟩ := hl.filled g (List.mem_of_mem_dropLast hg)
    obtain ⟨b, hmem, rfl, -⟩ := Process.view_eq_some hview
    have hlength : g.2.toNat = b.size + memBlockMetaSize := by omega
    rw [hlength, Nat.dvd_add_left (by decide)]
    constructor
    · rintro ⟨b', hmem', hdvd⟩
      obtain rfl : b = b' := Option.some.inj (hmem.symm.trans hmem')
      exact hdvd
    · exact fun hdvd => ⟨b, hmem, hdvd⟩
  refine ⟨l, hl.chain, ?_⟩
  rw [and_iff_left_of_imp hheld, hheaders, hsizes]
  exact hpacked.aligned_iff (Nat.dvd_trans (by decide) hstart)

/-- Two requests of 8 bytes: both blocks are aligned. -/
theorem blocks_aligned_iff_eight : ∃ m : Machine, m.held = [(4152, 8), (4120, 8)] ∧
    ∃ blocks, Chain m.proc.next NULL m.proc.memBlockList blocks ∧
      (((∀ a ∈ blocks, 8 ∣ a) ∧ ∀ x ∈ m.held, 8 ∣ x.1) ↔
        ∀ a ∈ blocks.dropLast, ∃ b, m.proc.mem a = some b ∧ 8 ∣ b.size) := by
  have h₀ : (System.ofNextWhen (Machine.StartsAligned smallArena) (Machine.next smallArena)
      (SaneAlone smallArena)).Reachable ⟨Process.initial, 4096, []⟩ :=
    .start ⟨4096, by decide, by decide, by decide, rfl⟩
  have h₁ := h₀.next ⟨.malloc 8 0 true, ⟨.inl (by decide), by simp⟩, rfl⟩
  have h₂ := h₁.next ⟨.malloc 8 0 true, ⟨.inl (by decide), by simp⟩, rfl⟩
  exact ⟨_, rfl, blocks_aligned_iff h₂⟩

/-- After a request of one byte, the next block starts at an odd address. -/
theorem block_not_aligned :
    ∃ m, (System.ofNext (Machine.StartsAligned smallArena) (Machine.next smallArena)).Reachable m ∧
      m.held = [(4145, 8), (4120, 1)] ∧ m.proc.next 4096 = some 4121 := by
  have h₀ : (System.ofNext (Machine.StartsAligned smallArena) (Machine.next smallArena)).Reachable
      ⟨Process.initial, 4096, []⟩ := .start ⟨4096, by decide, by decide, by decide, rfl⟩
  have h₁ := h₀.next ⟨.malloc 1 0 true, rfl⟩
  exact ⟨_, h₁.next ⟨.malloc 8 0 true, rfl⟩, rfl, rfl⟩

end Alignment

end TlpiExercises.Malloc
