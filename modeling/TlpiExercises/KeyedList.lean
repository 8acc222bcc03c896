import Mathlib.Data.List.Basic
import Mathlib.Data.List.Nodup
import Mathlib.Tactic

/-!
# Lists searched by key

A list whose entries carry a key, read by taking the first entry with a given
key. When the keys are distinct the list is a finite map: dropping a key and
appending an entry with a new key are its updates.
-/
namespace TlpiExercises.KeyedList

variable {α κ : Type*} [DecidableEq κ] (key : α → κ)

/-- The first entry with key `k`. -/
def lookup (l : List α) (k : κ) : Option α := l.find? fun e => key e = k

/-- The entries with another key. -/
def dropKey (l : List α) (k : κ) : List α := l.filter fun e => key e ≠ k

variable {key}

theorem lookup_eq_none_iff {l : List α} {k : κ} : lookup key l k = none ↔ k ∉ l.map key := by
  simp [lookup]

@[simp] theorem lookup_dropKey_self (l : List α) (k : κ) : lookup key (dropKey key l k) k = none := by
  simp [lookup, dropKey]

theorem lookup_dropKey_of_ne (l : List α) {k k' : κ} (h : k' ≠ k) :
    lookup key (dropKey key l k) k' = lookup key l k' := by
  simp only [lookup, dropKey, List.find?_filter]
  congr 1
  funext e
  by_cases he : key e = k'
  · simp [he, h]
  · simp [he]

@[simp] theorem lookup_cons_self (l : List α) (e : α) : lookup key (e :: l) (key e) = some e := by
  simp [lookup]

theorem lookup_cons_of_ne (l : List α) {e : α} {k : κ} (h : key e ≠ k) :
    lookup key (e :: l) k = lookup key l k := by
  simp [lookup, h]

/-- Among distinct keys, every entry is found by its key. -/
theorem lookup_of_mem {l : List α} (h : (l.map key).Nodup) {e : α} (he : e ∈ l) :
    lookup key l (key e) = some e := by
  induction l with
  | nil => contradiction
  | cons a l ih =>
      obtain ⟨ha, hnodup⟩ := List.nodup_cons.mp h
      rcases List.mem_cons.mp he with rfl | he
      · exact lookup_cons_self l e
      · have hne : key a ≠ key e := fun heq => ha (heq ▸ List.mem_map_of_mem he)
        rw [lookup_cons_of_ne l hne, ih hnodup he]

theorem lookup_append_of_ne (l : List α) {e : α} {k : κ} (h : key e ≠ k) :
    lookup key (l ++ [e]) k = lookup key l k := by
  simp [lookup, h]

theorem lookup_append_self {l : List α} {e : α} (h : lookup key l (key e) = none) :
    lookup key (l ++ [e]) (key e) = some e := by
  simp only [lookup] at h
  simp [lookup, h]

theorem nodup_dropKey {l : List α} (h : (l.map key).Nodup) (k : κ) :
    ((dropKey key l k).map key).Nodup :=
  h.sublist (List.filter_sublist.map key)

theorem nodup_append {l : List α} (h : (l.map key).Nodup) {e : α}
    (he : lookup key l (key e) = none) : ((l ++ [e]).map key).Nodup := by
  rw [List.map_append, List.nodup_append]
  refine ⟨h, List.nodup_singleton _, ?_⟩
  intro k hk k' hk' heq
  obtain rfl : k' = key e := by simpa using hk'
  exact lookup_eq_none_iff.mp he (heq ▸ hk)

end TlpiExercises.KeyedList
