import TlpiExercises.MallocHeap

/-!
# The block list as an abstract list

Seen from outside, the allocator keeps a list of sizes with occupancy flags.
The linked list in memory represents such a list when it visits one block for
each entry, in order, and ends at NULL. Every call acts on the abstract list by
its first-fit description, from any reachable state.
-/
namespace TlpiExercises.Malloc

/-- The abstract heap: size and occupancy of each block, in list order. -/
abbrev BlockList := List (ℕ × Bool)

/-- The position of the first free block that is large enough. -/
def BlockList.firstFit (bs : BlockList) (sz : ℕ) : Option ℕ :=
  bs.findIdx? fun b => !b.2 && decide (sz ≤ b.1)

/-- The `int` stored for an occupancy flag. -/
def flagOf (occupied : Bool) : ℤ := if occupied then 1 else 0

/-- The header fields an abstract block stands for. -/
def entryView (b : ℕ × Bool) : Option (ℕ × ℤ) := some (b.1, flagOf b.2)

/-- The list in memory visits the blocks at `l`, ends at NULL, and shows the
entries `bs` in this order. -/
structure Represents (s : Process) (l : List ℕ) (bs : BlockList) : Prop where
  chain : Chain s.next NULL s.memBlockList l
  entries : l.map s.view = bs.map entryView

namespace Represents

variable {s : Process} {l : List ℕ} {bs : BlockList}

theorem view_of_getElem? (h : Represents s l bs) {i a n : ℕ} {occ : Bool} (ha : l[i]? = some a)
    (hb : bs[i]? = some (n, occ)) : s.view a = some (n, flagOf occ) := by
  have hi := congrArg (·[i]?) h.entries
  simpa [ha, hb, entryView] using hi

theorem length_eq (h : Represents s l bs) : l.length = bs.length := by
  simpa using congrArg List.length h.entries

/-- Both levels find the same first fitting block. -/
theorem findIdx?_fits (h : Represents s l bs) (sz : ℕ) :
    l.findIdx? (fits s sz) = bs.firstFit sz := by
  let free (v : Option (ℕ × ℤ)) : Bool := v.any fun v => v.2 = 0 ∧ sz ≤ v.1
  have hfits : fits s sz = free ∘ s.view := by
    funext a
    cases hm : s.mem a <;> simp [fits, free, Process.view, hm]
  have hentry : (free ∘ entryView) = fun b => !b.2 && decide (sz ≤ b.1) := by
    funext b
    cases hb : b.2 <;> simp [free, entryView, flagOf, hb]
  rw [hfits, ← List.findIdx?_map, h.entries, List.findIdx?_map, hentry]
  rfl

theorem find?_of_firstFit (h : Represents s l bs) {sz i : ℕ} (hi : bs.firstFit sz = some i) :
    ∃ a n, l[i]? = some a ∧ bs[i]? = some (n, false) ∧ l.find? (fits s sz) = some a := by
  have hb := List.findIdx?_eq_some_iff_getElem.mp hi
  obtain ⟨hlt, hfree, -⟩ := hb
  have hlt' : i < l.length := by rw [h.length_eq]; exact hlt
  refine ⟨l[i], bs[i].1, List.getElem?_eq_getElem hlt', ?_, ?_⟩
  · rw [List.getElem?_eq_getElem hlt]
    simp only [Bool.and_eq_true, Bool.not_eq_true', decide_eq_true_eq] at hfree
    rw [← hfree.1]
  · rw [List.find?_eq_bind_findIdx?_getElem?, h.findIdx?_fits, hi]
    exact List.getElem?_eq_getElem hlt'

theorem find?_of_firstFit_none (h : Represents s l bs) {sz : ℕ} (hi : bs.firstFit sz = none) :
    l.find? (fits s sz) = none := by
  rw [List.find?_eq_bind_findIdx?_getElem?, h.findIdx?_fits, hi]
  rfl

/-- Writing one block's flag writes the one entry at its position. -/
theorem set (h : Represents s l bs) {i a : ℕ} {b : MemBlockMeta} (ha : l[i]? = some a)
    (hb : s.mem a = some b) (occ : Bool) :
    Represents (s.put a { b with occupied := flagOf occ }) l (bs.set i (b.size, occ)) := by
  obtain ⟨hlt, rfl⟩ := List.getElem?_eq_some_iff.mp ha
  constructor
  · rw [Process.next_put_occupied hb]
    exact h.chain
  · rw [Process.view_put, h.chain.nodup.map_update, if_pos (List.getElem_mem hlt),
      h.chain.nodup.idxOf_getElem, h.entries, List.map_set]
    rfl

/-- An appended block appends its entry and moves no other. -/
theorem append (h : Represents s l bs) {s' : Process} {a sz : ℕ} (hnew : a ∉ l)
    (hchain : Chain s'.next NULL s'.memBlockList (l ++ [a]))
    (hview : s'.view = Function.update s.view a (some (sz, 1))) :
    Represents s' (l ++ [a]) (bs ++ [(sz, true)]) := by
  refine ⟨hchain, ?_⟩
  rw [hview, List.map_append, h.chain.nodup.map_update, if_neg hnew, h.entries]
  simp [entryView, flagOf]

end Represents

/-- Flags are only ever 0 or 1, so every laid out list represents one. -/
theorem Layout.represents {s : Process} {l : List ℕ} (h : Layout s l) : ∃ bs, Represents s l bs := by
  have hbs : ∀ a ∈ l, ∃ b, s.view a = entryView b := by
    intro a ha
    obtain ⟨sz, flag, hv, hf⟩ := h.flag a ha
    rcases hf with rfl | rfl
    · exact ⟨(sz, false), hv⟩
    · exact ⟨(sz, true), hv⟩
  choose! f hf using hbs
  exact ⟨l.map f, h.chain, by rw [List.map_map]; exact List.map_congr_left hf⟩

/-- `myMalloc` from `s` acts by first fit: it marks the first free block that is
large enough; without one it appends an occupied block of the requested size
when `sbrk` succeeds, and changes nothing when `sbrk` fails. It always returns. -/
structure MallocRefines (s : Process) (l : List ℕ) (bs : BlockList) (sz : ℕ)
    (answer : Option ℕ) (call : Call ℕ) : Prop where
  hit : ∀ i, bs.firstFit sz = some i → ∃ a n s', l[i]? = some a ∧ bs[i]? = some (n, false) ∧
    call.run s = .ok (a + memBlockMetaSize) s' ∧ Represents s' l (bs.set i (n, true))
  grown : ∀ a, bs.firstFit sz = none → answer = some a → ∃ s',
    call.run s = .ok (a + memBlockMetaSize) s' ∧
    Represents s' (l ++ [a]) (bs ++ [(sz, true)]) ∧ (l ++ [a]).Nodup
  refused : bs.firstFit sz = none → answer = none → call.run s = .ok NULL s

/-- `myFree` from `s` clears the one flag of an occupied block, and stops at the
assertion with the process unchanged on a block that is free already. -/
structure FreeRefines (s : Process) (l : List ℕ) (bs : BlockList) : Prop where
  occupied : ∀ i a n : ℕ, l[i]? = some a → bs[i]? = some (n, true) → ∃ s',
    (myFree (a + memBlockMetaSize)).run s = .ok () s' ∧ Represents s' l (bs.set i (n, false))
  free : ∀ i a n : ℕ, l[i]? = some a → bs[i]? = some (n, false) →
    (myFree (a + memBlockMetaSize)).run s = .error .assertion s

theorem mallocRefines {s : Process} {l : List ℕ} {bs : BlockList} (hl : Layout s l)
    (h : Represents s l bs) {sz fuel : ℕ} (answer : Option ℕ) (last : ℕ) (hsz : 0 < sz)
    (hsbrk : ∀ a, answer = some a → Fresh s (sz + memBlockMetaSize) a) (hfuel : l.length < fuel) :
    MallocRefines s l bs sz answer (myMalloc fuel answer last sz) where
  hit i hi := by
    obtain ⟨a, n, ha, hn, hfind⟩ := h.find?_of_firstFit hi
    obtain ⟨b, hb, rfl, -⟩ := Process.view_eq_some (h.view_of_getElem? ha hn)
    exact ⟨a, b.size, _, ha, hn,
      run_myMalloc_hit h.chain (by omega) hfuel answer last hfind hb, h.set ha hb true⟩
  grown a hi ha := by
    subst ha
    have hf := hsbrk a rfl
    have hnew : a ∉ l := hl.not_mem_of_fresh (by simp) hf
    obtain ⟨s', hrun, hchain, hview, -⟩ := run_myMalloc_grow h.chain (by omega) hfuel last
      (h.find?_of_firstFit_none hi) hf.ne_null hnew
    exact ⟨s', hrun, h.append hnew hchain hview, hchain.nodup⟩
  refused hi ha := by
    subst ha
    exact run_myMalloc_refused h.chain (by omega) hfuel last (h.find?_of_firstFit_none hi)

theorem freeRefines {s : Process} {l : List ℕ} {bs : BlockList} (hl : Layout s l)
    (h : Represents s l bs) : FreeRefines s l bs where
  occupied i a n ha hn := by
    have hv := h.view_of_getElem? ha hn
    obtain ⟨b, hb, rfl, hocc⟩ := Process.view_eq_some hv
    have hbound := hl.bound_of_mem (List.mem_of_getElem? ha) hv
    exact ⟨_, run_myFree_occupied hb (h.chain.ne_null (List.mem_of_getElem? ha)) (by omega) hocc,
      h.set ha hb false⟩
  free i a n ha hn := by
    have hv := h.view_of_getElem? ha hn
    obtain ⟨b, hb, rfl, hocc⟩ := Process.view_eq_some hv
    have hbound := hl.bound_of_mem (List.mem_of_getElem? ha) hv
    exact run_myFree_free hb (h.chain.ne_null (List.mem_of_getElem? ha)) (by omega)
      (by simp [hocc, flagOf])

/-- The linked list refines the abstract block list: in every state of every run
it is acyclic, ends at NULL and shows a list of sizes and flags in which every
live pointer is an occupied block, and every call acts on that list alone. -/
theorem blockList_refined {r : Run} (h : system.Reachable r) :
    ∃ l bs, Represents r.proc l bs ∧ l.Nodup ∧
      (∀ x ∈ r.live, ∃ i a n : ℕ, l[i]? = some a ∧ bs[i]? = some (n, true) ∧
        x.1 = a + memBlockMetaSize) ∧
      (∀ sz answer last fuel, 0 < sz → sz + memBlockMetaSize < 2 ^ 63 →
        (∀ a, answer = some a → Fresh r.proc (sz + memBlockMetaSize) a) → l.length < fuel →
        MallocRefines r.proc l bs sz answer (myMalloc fuel answer last sz)) ∧
      FreeRefines r.proc l bs := by
  obtain ⟨l, hl, hs⟩ := inv_of_reachable h
  obtain ⟨bs, hbs⟩ := hl.represents
  refine ⟨l, bs, hbs, hl.chain.nodup, ?_, ?_, freeRefines hl hbs⟩
  · intro x hx
    obtain ⟨a, ha, sz, hv, hxa, -⟩ := hs.block x hx
    obtain ⟨i, hi, rfl⟩ := List.getElem_of_mem ha
    have hib : i < bs.length := hbs.length_eq ▸ hi
    obtain ⟨n, occ, hn⟩ : ∃ n occ, bs[i]? = some (n, occ) := ⟨_, _, List.getElem?_eq_getElem hib⟩
    have hocc := hbs.view_of_getElem? (List.getElem?_eq_getElem hi) hn
    rw [hv] at hocc
    cases occ with
    | true => exact ⟨i, _, n, List.getElem?_eq_getElem hi, hn, hxa⟩
    | false => simp [flagOf] at hocc
  · intro sz answer last fuel hpos _ hsbrk hfuel
    exact mallocRefines hl hbs answer last hpos hsbrk hfuel

theorem blockList_refined_reuse : ∃ r l bs, system.Reachable r ∧
    r.live = [(4120, 5), (4154, 20)] ∧ Represents r.proc l bs ∧ FreeRefines r.proc l bs := by
  obtain ⟨r, hr, hlive⟩ := reuse_run
  obtain ⟨l, bs, hrep, -, -, -, hfree⟩ := blockList_refined hr
  exact ⟨r, l, bs, hr, hlive, hrep, hfree⟩

end TlpiExercises.Malloc
