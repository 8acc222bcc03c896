import Mathlib.Algebra.BigOperators.Group.Finset.Basic
import Mathlib.Algebra.Order.BigOperators.Group.Finset
import Mathlib.Data.Fintype.Basic
import TlpiExercises.Transition

/-!
# A counter whose increments can be lost

A thread increments the counter by loading it and storing one more than what it loaded.
What the others store in between is overwritten. However many increments are lost in this
way, a thread that has stored before never loads zero again, and this bounds the counter
from below.
-/
namespace TlpiExercises.RacyCounter

/-- The counter, what each thread has loaded and not yet stored, and how often each has stored. -/
structure Counter (τ : Type*) where
  value : ℕ
  loaded : τ → Option ℕ
  stores : τ → ℕ

namespace Counter

variable {τ : Type*}

def zero : Counter τ := ⟨0, fun _ => none, fun _ => 0⟩

/-- The number of all increments. -/
def total [Fintype τ] (c : Counter τ) : ℕ := ∑ i, c.stores i

variable [DecidableEq τ]

def load (c : Counter τ) (i : τ) : Counter τ :=
  { c with loaded := Function.update c.loaded i (some c.value) }

def store (c : Counter τ) (i : τ) (v : ℕ) : Counter τ where
  value := v + 1
  loaded := Function.update c.loaded i none
  stores := Function.update c.stores i (c.stores i + 1)

@[simp] theorem total_load [Fintype τ] (c : Counter τ) (i : τ) : (c.load i).total = c.total := rfl

@[simp] theorem total_store [Fintype τ] (c : Counter τ) (i : τ) (v : ℕ) :
    (c.store i v).total = c.total + 1 := by
  have hsplit := Finset.add_sum_erase Finset.univ c.stores (Finset.mem_univ i)
  unfold total store
  rw [Finset.sum_update_of_mem (Finset.mem_univ i), Finset.sdiff_singleton_eq_erase]
  omega

end Counter

variable {τ : Type*} [DecidableEq τ]

inductive Step : Counter τ → Counter τ → Prop
  | load {c : Counter τ} (i : τ) (h : c.loaded i = none) : Step c (c.load i)
  | store {c : Counter τ} (i : τ) (v : ℕ) (h : c.loaded i = some v) : Step c (c.store i v)

/-- All interleavings of loads and stores, from zero on. -/
def system (τ : Type*) [DecidableEq τ] : System (Counter τ) := ⟨(· = .zero), Step⟩

/-- No value exceeds the number of increments. -/
structure Bounded [Fintype τ] (c : Counter τ) : Prop where
  value : c.value ≤ c.total
  loaded : ∀ i, ∀ v ∈ c.loaded i, v ≤ c.total

theorem Bounded.step [Fintype τ] {c c' : Counter τ} (h : Bounded c) (hstep : Step c c') :
    Bounded c' := by
  cases hstep with
  | load i _ =>
      refine ⟨h.value, fun k v hv => ?_⟩
      by_cases hk : k = i
      · subst hk
        obtain rfl : c.value = v := by simpa [Counter.load] using hv
        exact h.value
      · exact h.loaded k v (by simpa [Counter.load, hk] using hv)
  | store i w hi =>
      have hw := h.loaded i w hi
      refine ⟨?_, fun k v hv => ?_⟩
      · rw [Counter.total_store]
        exact Nat.succ_le_succ hw
      · rw [Counter.total_store]
        by_cases hk : k = i
        · subst hk
          simp [Counter.store] at hv
        · exact (h.loaded k v (by simpa [Counter.store, hk] using hv)).trans (Nat.le_succ _)

theorem bounded_of_reachable [Fintype τ] {c : Counter τ} (h : (system τ).Reachable c) :
    Bounded c := by
  refine h.invariant Bounded ?_ fun _ _ _ hs hstep => hs.step hstep
  rintro _ rfl
  exact ⟨Nat.zero_le _, fun i v hv => by simp [Counter.zero] at hv⟩

/-- After the first store nobody loads zero, and so a thread that stores for a second time
stores two or more. -/
structure Grown (c : Counter τ) : Prop where
  value_pos : (∃ i, c.stores i ≠ 0) → 0 < c.value
  loaded_pos : ∀ i, c.stores i ≠ 0 → ∀ v ∈ c.loaded i, 0 < v
  two_le : (∃ i, c.stores i ≠ 0) → (∀ i, c.stores i ≠ 1) → 2 ≤ c.value

theorem Grown.step {c c' : Counter τ} (h : Grown c) (hstep : Step c c') : Grown c' := by
  cases hstep with
  | load i _ =>
      refine ⟨h.value_pos, fun k hk v hv => ?_, h.two_le⟩
      by_cases hki : k = i
      · subst hki
        obtain rfl : c.value = v := by simpa [Counter.load] using hv
        exact h.value_pos ⟨k, hk⟩
      · exact h.loaded_pos k hk v (by simpa [Counter.load, hki] using hv)
  | store i w hi =>
      refine ⟨fun _ => Nat.succ_pos w, fun k hk v hv => ?_, fun _ hone => ?_⟩
      · by_cases hki : k = i
        · subst hki
          simp [Counter.store] at hv
        · refine h.loaded_pos k ?_ v (by simpa [Counter.store, hki] using hv)
          simpa [Counter.store, hki] using hk
      · have hi' : c.stores i ≠ 0 := by simpa [Counter.store] using hone i
        have hw := h.loaded_pos i hi' w hi
        show 2 ≤ w + 1
        omega

theorem grown_of_reachable {c : Counter τ} (h : (system τ).Reachable c) : Grown c := by
  refine h.invariant Grown ?_ fun _ _ _ hs hstep => hs.step hstep
  rintro _ rfl
  have hnone : ¬ ∃ i : τ, (Counter.zero : Counter τ).stores i ≠ 0 := by
    rintro ⟨i, hi⟩
    exact hi rfl
  exact ⟨fun hex => absurd hex hnone, fun i hi => absurd rfl hi, fun hex => absurd hex hnone⟩

end TlpiExercises.RacyCounter
