import Mathlib.Data.List.Nodup
import Mathlib.Logic.Function.Basic
import Mathlib.Tactic

/-!
# Null-terminated pointer chains

`next a` is the successor stored in the cell at address `a`, or `none` when no
cell is there. A chain from `p` visits a finite list of cells and ends at the
null address. Since successors are unique, a chain that ends never repeats a
cell: the finite list of visited addresses is itself the proof of acyclicity.
-/
namespace TlpiExercises

variable {α : Type*}

/-- Following `next` from `p` visits exactly the cells `l` and then `null`. -/
def Chain (next : α → Option α) (null : α) : α → List α → Prop
  | p, [] => p = null
  | p, a :: l => p = a ∧ a ≠ null ∧ ∃ q, next a = some q ∧ Chain next null q l

namespace Chain

variable {next next' : α → Option α} {null : α}

@[simp] theorem nil_iff {p : α} : Chain next null p [] ↔ p = null := Iff.rfl

theorem ne_null {p a : α} {l : List α} (h : Chain next null p l) (ha : a ∈ l) : a ≠ null := by
  induction l generalizing p with
  | nil => simp at ha
  | cons b l ih =>
      obtain ⟨-, hb, q, -, hq⟩ := h
      rcases List.mem_cons.mp ha with rfl | ha
      · exact hb
      · exact ih hq ha

theorem next_isSome {p a : α} {l : List α} (h : Chain next null p l) (ha : a ∈ l) :
    (next a).isSome := by
  induction l generalizing p with
  | nil => simp at ha
  | cons b l ih =>
      obtain ⟨-, -, q, hb, hq⟩ := h
      rcases List.mem_cons.mp ha with rfl | ha
      · simp [hb]
      · exact ih hq ha

/-- The head of a chain is null exactly when no cell is visited. -/
theorem head_eq_null_iff {p : α} {l : List α} (h : Chain next null p l) :
    p = null ↔ l = [] := by
  cases l with
  | nil => simpa using h
  | cons a l =>
      obtain ⟨rfl, ha, -⟩ := h
      simp [ha]

/-- The visited cells are determined by the start. -/
theorem unique {p : α} {l l' : List α} (h : Chain next null p l) (h' : Chain next null p l') :
    l = l' := by
  induction l generalizing p l' with
  | nil => exact (h'.head_eq_null_iff.mp h).symm
  | cons a l ih =>
      obtain ⟨rfl, ha, q, hn, hq⟩ := h
      cases l' with
      | nil => exact absurd h' ha
      | cons b l' =>
          obtain ⟨rfl, -, q', hn', hq'⟩ := h'
          have he : q = q' := Option.some.inj (hn.symm.trans hn')
          subst he
          rw [ih hq hq']

/-- Every visited cell starts the corresponding suffix of the chain. -/
theorem suffix {p a : α} {l₁ l₂ : List α} (h : Chain next null p (l₁ ++ a :: l₂)) :
    Chain next null a (a :: l₂) := by
  induction l₁ generalizing p with
  | nil =>
      obtain ⟨rfl, hrest⟩ := h
      exact ⟨rfl, hrest⟩
  | cons b l₁ ih =>
      obtain ⟨-, -, q, -, hq⟩ := h
      exact ih hq

/-- A terminated chain is acyclic. -/
theorem nodup {p : α} {l : List α} (h : Chain next null p l) : l.Nodup := by
  induction l generalizing p with
  | nil => exact List.nodup_nil
  | cons a l ih =>
      have hcons := h
      obtain ⟨rfl, ha, q, hn, hq⟩ := h
      refine List.nodup_cons.mpr ⟨?_, ih hq⟩
      intro hmem
      obtain ⟨l₁, l₂, rfl⟩ := List.append_of_mem hmem
      have hlen := congrArg List.length (hcons.unique hq.suffix)
      simp at hlen
      omega

/-- Only the successors of visited cells matter. -/
theorem congr {p : α} {l : List α} (h : Chain next null p l)
    (hagree : ∀ a ∈ l, next' a = next a) : Chain next' null p l := by
  induction l generalizing p with
  | nil => exact h
  | cons a l ih =>
      obtain ⟨rfl, ha, q, hn, hq⟩ := h
      have hn' : next' p = some q := by rw [hagree p (by simp), hn]
      exact ⟨rfl, ha, q, hn', ih hq (fun b hb => hagree b (by simp [hb]))⟩

/-- The successor of the last cell is null. -/
theorem next_last {p t : α} {l : List α} (h : Chain next null p (l ++ [t])) :
    next t = some null := by
  obtain ⟨-, -, q, hn, hq⟩ := h.suffix
  rw [hn, hq]

/-- Linking one further cell behind the last one extends the chain by it. -/
theorem link_last {p t q : α} {l : List α} (h : Chain next null p (l ++ [t]))
    (hq : q ≠ null) (hagree : ∀ a ∈ l, next' a = next a)
    (ht : next' t = some q) (hlast : next' q = some null) :
    Chain next' null p (l ++ [t, q]) := by
  induction l generalizing p with
  | nil =>
      obtain ⟨rfl, ht₀, -⟩ := h
      exact ⟨rfl, ht₀, q, ht, rfl, hq, null, hlast, rfl⟩
  | cons a l ih =>
      obtain ⟨rfl, ha, r, hn, hr⟩ := h
      have hn' : next' p = some r := by rw [hagree p (by simp), hn]
      exact ⟨rfl, ha, r, hn', ih hr (fun b hb => hagree b (by simp [hb]))⟩

end Chain

end TlpiExercises
