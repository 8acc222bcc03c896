import Mathlib.Tactic

/-!
# Programs that access a region of memory

A program loads and stores single cells at offsets from the start of a region. Alone it runs on
the region as on a list, and an access outside has no result. On a shared memory it makes one
access at a time, at addresses, with no check at all. If the run alone has a result, then the
accesses stay inside the region and lead to the same result, whatever happens to the rest of the
memory in between.
-/
namespace TlpiExercises.MemoryPrograms

inductive Prog (β α : Type*) where
  | ret (a : α)
  | load (i : ℕ) (next : β → Prog β α)
  | store (i : ℕ) (x : β) (next : Prog β α)

variable {β α γ : Type*}

namespace Prog

def bind : Prog β α → (α → Prog β γ) → Prog β γ
  | ret a, f => f a
  | load i next, f => load i fun x => (next x).bind f
  | store i x next, f => store i x (next.bind f)

/-- The run on a region that nobody else accesses. -/
def run : Prog β α → List β → Option (α × List β)
  | ret a, m => some (a, m)
  | load i next, m => m[i]?.bind fun x => (next x).run m
  | store i x next, m => if i < m.length then next.run (m.set i x) else none

/-- The next access, with the region at address `base` of a shared memory. -/
def access (base : ℕ) (heap : ℕ → β) : Prog β α → Option (Prog β α × (ℕ → β))
  | ret _ => none
  | load i next => some (next (heap (base + i)), heap)
  | store i x next => some (next, Function.update heap (base + i) x)

theorem run_load {i : ℕ} {next : β → Prog β α} {m : List β} {x : β} (h : m[i]? = some x) :
    (load i next).run m = (next x).run m := by
  rw [run, h, Option.bind_some]

theorem run_store {i : ℕ} {x : β} {next : Prog β α} {m : List β} (h : i < m.length) :
    (store i x next).run m = next.run (m.set i x) :=
  if_pos h

theorem run_bind {p : Prog β α} {f : α → Prog β γ} {m m' : List β} {a : α}
    (h : p.run m = some (a, m')) : (p.bind f).run m = (f a).run m' := by
  induction p generalizing m with
  | ret b =>
      obtain ⟨rfl, rfl⟩ : b = a ∧ m = m' := by simpa [run] using h
      rfl
  | load i next ih =>
      obtain ⟨x, hx, hrun⟩ := Option.bind_eq_some_iff.mp h
      rw [bind, run_load hx]
      exact ih x hrun
  | store i x next ih =>
      obtain ⟨hi, hrun⟩ := Option.ite_none_right_eq_some.mp h
      rw [bind, run_store hi]
      exact ih hrun

end Prog

/-- The `n` cells from an address on. -/
def region (heap : ℕ → β) (base n : ℕ) : List β := (List.range n).map fun i => heap (base + i)

@[simp] theorem length_region (heap : ℕ → β) (base n : ℕ) : (region heap base n).length = n := by
  simp [region]

theorem getElem?_region (heap : ℕ → β) (base : ℕ) {n i : ℕ} (h : i < n) :
    (region heap base n)[i]? = some (heap (base + i)) := by
  simp [region, h]

theorem region_congr {heap heap' : ℕ → β} {base n : ℕ}
    (h : ∀ a, base ≤ a → a < base + n → heap' a = heap a) :
    region heap' base n = region heap base n := by
  apply List.map_congr_left
  intro i hi
  exact h _ (by omega) (by rw [List.mem_range] at hi; omega)

theorem region_update (heap : ℕ → β) (base : ℕ) {n i : ℕ} (h : i < n) (x : β) :
    region (Function.update heap (base + i) x) base n = (region heap base n).set i x := by
  apply List.ext_getElem?
  intro k
  by_cases hk : k < n
  · rw [getElem?_region _ _ hk]
    by_cases hki : k = i
    · subst hki
      rw [Function.update_self, List.getElem?_set_self (by simpa using hk)]
    · rw [Function.update_of_ne (by omega), List.getElem?_set_ne (Ne.symm hki),
        getElem?_region _ _ hk]
  · rw [List.getElem?_eq_none (by simpa using hk), List.getElem?_eq_none (by simpa using hk)]

/-- An access of a program whose run alone has a result leaves that result as it is, and changes
nothing outside the region. -/
theorem Prog.access_spec {p p' : Prog β α} {base n : ℕ} {heap heap' : ℕ → β} {r : α × List β}
    (hrun : p.run (region heap base n) = some r) (hstep : p.access base heap = some (p', heap')) :
    p'.run (region heap' base n) = some r ∧
      ∀ a, ¬ (base ≤ a ∧ a < base + n) → heap' a = heap a := by
  cases p with
  | ret a => cases hstep
  | load i next =>
      obtain ⟨rfl, rfl⟩ : next (heap (base + i)) = p' ∧ heap = heap' := by
        simpa [Prog.access] using hstep
      obtain ⟨x, hx, hnext⟩ := Option.bind_eq_some_iff.mp hrun
      have hi : i < n := by
        have hlt := (List.getElem?_eq_some_iff.mp hx).1
        simpa using hlt
      rw [getElem?_region heap base hi, Option.some.injEq] at hx
      exact ⟨hx ▸ hnext, fun _ _ => rfl⟩
  | store i x next =>
      obtain ⟨rfl, rfl⟩ : next = p' ∧ Function.update heap (base + i) x = heap' := by
        simpa [Prog.access] using hstep
      obtain ⟨hi, hnext⟩ := Option.ite_none_right_eq_some.mp hrun
      rw [length_region] at hi
      refine ⟨?_, fun a ha => Function.update_of_ne ?_ ..⟩
      · rwa [region_update heap base hi]
      · rintro rfl
        exact ha ⟨by omega, by omega⟩

end TlpiExercises.MemoryPrograms
