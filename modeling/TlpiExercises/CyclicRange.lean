import Mathlib

/-!
# Ranges of a counter that wraps

A counter modulo `N` hands out ranges, each starting where the one before it
ended. As long as the lengths add up to at most `N`, no position is handed out
twice.
-/
namespace TlpiExercises.CyclicRange

/-- The `n` positions from `s` on, on a circle with `N` positions. -/
def arc (N s n : ℕ) : Set ℕ := {x | ∃ i < n, x = (s + i) % N}

/-- Ranges `(start, length)` laid end to end from `s`, with their starts reduced
modulo `N`. -/
inductive Consecutive (N : ℕ) : ℕ → List (ℕ × ℕ) → Prop
  | nil (s : ℕ) : Consecutive N s []
  | cons {s a n : ℕ} {l : List (ℕ × ℕ)} : a ≡ s [MOD N] → Consecutive N (s + n) l →
      Consecutive N s ((a, n) :: l)

theorem arc_congr {N a b : ℕ} (h : a ≡ b [MOD N]) (n : ℕ) : arc N a n = arc N b n := by
  have hmod : ∀ i, (a + i) % N = (b + i) % N := fun i => h.add_right i
  simp only [arc, hmod]

/-- Two ranges within one turn of the circle that do not overlap as intervals. -/
theorem arc_disjoint {N a n b m : ℕ} (hab : a + n ≤ b) (hturn : b + m ≤ a + N) :
    Disjoint (arc N a n) (arc N b m) := by
  rw [Set.disjoint_left]
  rintro x ⟨i, hi, rfl⟩ ⟨j, hj, heq⟩
  have hdvd : N ∣ (b + j) - (a + i) := (Nat.modEq_iff_dvd' (by omega)).mp heq
  have hle := Nat.le_of_dvd (by omega) hdvd
  omega

namespace Consecutive

theorem congr {N s s' : ℕ} {l : List (ℕ × ℕ)} (h : Consecutive N s l) (hs : s ≡ s' [MOD N]) :
    Consecutive N s' l := by
  induction h generalizing s' with
  | nil => exact .nil s'
  | @cons s a n l ha hl ih => exact .cons (ha.trans hs) (ih (hs.add_right n))

theorem mem {N s : ℕ} {l : List (ℕ × ℕ)} (h : Consecutive N s l) {r : ℕ × ℕ} (hr : r ∈ l) :
    ∃ t, s ≤ t ∧ r.1 ≡ t [MOD N] ∧ t + r.2 ≤ s + (l.map Prod.snd).sum := by
  induction h with
  | nil => simp at hr
  | @cons s a n l ha hl ih =>
      rw [List.map_cons, List.sum_cons]
      rcases List.mem_cons.mp hr with rfl | hr
      · exact ⟨s, le_rfl, ha, by simp only; omega⟩
      · obtain ⟨t, hst, hmod, hend⟩ := ih hr
        exact ⟨t, by omega, hmod, by omega⟩

/-- Within one turn, ranges laid end to end are pairwise disjoint. -/
theorem pairwise_disjoint {N s : ℕ} {l : List (ℕ × ℕ)} (h : Consecutive N s l)
    (htotal : (l.map Prod.snd).sum ≤ N) :
    l.Pairwise fun r r' => Disjoint (arc N r.1 r.2) (arc N r'.1 r'.2) := by
  induction h with
  | nil => exact .nil
  | @cons s a n l ha hl ih =>
      rw [List.map_cons, List.sum_cons] at htotal
      refine .cons ?_ (ih (by omega))
      intro r hr
      obtain ⟨t, hst, hmod, hend⟩ := hl.mem hr
      rw [arc_congr ha, arc_congr hmod]
      exact arc_disjoint hst (by omega)

end Consecutive

end TlpiExercises.CyclicRange
