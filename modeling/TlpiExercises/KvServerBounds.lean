import TlpiExercises.KvServerHistory

/-!
# The cells of the key-value server's storage

`storage` has 100 cells. The key a request uses is the number on its line, or what is left
in `k` when the line has none; only keys of 100 and more are turned away before the
access.
-/
namespace TlpiExercises.KvServer
open ReadLine CText

/-- What the server does with a connection is in order: the iteration is defined, so
every access to `storage` is in range; a request with a key out of range is rejected and
leaves `storage` alone, and so does a connection without a request. -/
def Guarded (sv : Server) (c : Connection) (out : Outcome) (sv' : Server) : Prop :=
  iteration sv c = some (out, sv') ∧ (c.items = none → sv' = sv) ∧
    ∀ items, c.items = some items → ¬ (0 ≤ (sv.slots.assign items).k.toInt ∧
      (sv.slots.assign items).k.toInt < 100) → out = .rejected ∧ sv'.storage = sv.storage

/-- All of the run is in order. -/
def GuardedRun : Server → List Connection → Prop
  | _, [] => True
  | sv, c :: cs => ∃ out sv', Guarded sv c out sv' ∧ GuardedRun sv' cs

/-- The values `k` has when the requests are looked at. -/
def keysUsed : Slots → List Connection → List Int32
  | _, [] => []
  | slots, c :: cs =>
      match c.items with
      | none => keysUsed slots cs
      | some items => (slots.assign items).k :: keysUsed (slots.assign items) cs

/-- A key that is not negative is in range or rejected. -/
theorem answer_guarded {slots : Slots} (h : 0 ≤ slots.k.toInt) (written : ℤ)
    (storage : Vector Int32 100) :
    ∃ out storage', answer written storage slots = some (out, ⟨storage', slots⟩) ∧
      (¬ (0 ≤ slots.k.toInt ∧ slots.k.toInt < 100) → out = .rejected ∧ storage' = storage) := by
  by_cases hge : 100 ≤ slots.k.toInt
  · exact ⟨.rejected, storage, answer_rejected slots hge written storage, fun _ => ⟨rfl, rfl⟩⟩
  · obtain ⟨i, hi⟩ := index_of_range h hge
    have hin : 0 ≤ slots.k.toInt ∧ slots.k.toInt < 100 := ⟨h, by omega⟩
    have hanswer := answer_index slots hi written storage
    split_ifs at hanswer
    · exact ⟨_, _, hanswer, fun hout => absurd hin hout⟩
    · exact ⟨_, _, hanswer, fun hout => absurd hin hout⟩

section Step

variable {sv : Server} {c : Connection} {cs : List Connection}

/-- A connection without a request changes nothing. -/
theorem guardedRun_cons_of_no_items (hitems : c.items = none) :
    GuardedRun sv (c :: cs) ↔ GuardedRun sv cs := by
  obtain ⟨out, hiter⟩ := iteration_of_no_items hitems
  constructor
  · rintro ⟨out', sv', ⟨hrun, hsame, -⟩, hrest⟩
    rwa [hsame hitems] at hrest
  · intro hrest
    exact ⟨out, sv, ⟨hiter sv, fun _ => rfl, by simp [hitems]⟩, hrest⟩

/-- After a request with a key that is not negative the run goes on with its values. -/
theorem guardedRun_cons_of_nonneg {items : List Item} (hitems : c.items = some items)
    (hpos : 0 ≤ (sv.slots.assign items).k.toInt) :
    ∃ storage, GuardedRun sv (c :: cs) ↔ GuardedRun ⟨storage, sv.slots.assign items⟩ cs := by
  obtain ⟨written, hiter⟩ := iteration_of_items hitems
  obtain ⟨out, storage, hanswer, hreject⟩ := answer_guarded hpos written sv.storage
  rw [← hiter sv] at hanswer
  refine ⟨storage, ?_, ?_⟩
  · rintro ⟨out', sv', ⟨hrun, -⟩, hrest⟩
    obtain ⟨rfl, rfl⟩ := Prod.mk.inj (Option.some.inj (hanswer.symm.trans hrun))
    exact hrest
  · intro hrest
    refine ⟨out, _, ⟨hanswer, by simp [hitems], ?_⟩, hrest⟩
    intro items' hitems'
    obtain rfl := Option.some.inj (hitems.symm.trans hitems')
    exact hreject

theorem not_guardedRun_of_negative {items : List Item} (hitems : c.items = some items)
    (hneg : (sv.slots.assign items).k.toInt < 0) : ¬ GuardedRun sv (c :: cs) := by
  obtain ⟨written, hiter⟩ := iteration_of_items hitems
  rintro ⟨out, sv', ⟨hrun, -⟩, -⟩
  rw [hiter sv, answer_negative hneg] at hrun
  contradiction

end Step

/-- In every run, every access to `storage` is in range and every other request is rejected
with `storage` as it was, if and only if no request uses a negative key. -/
theorem storage_guarded_iff (sv : Server) (cs : List Connection) :
    GuardedRun sv cs ↔ ∀ k ∈ keysUsed sv.slots cs, 0 ≤ k.toInt := by
  induction cs generalizing sv with
  | nil => simp [GuardedRun, keysUsed]
  | cons c cs ih =>
      rcases hitems : c.items with _ | items
      · have hkeys : keysUsed sv.slots (c :: cs) = keysUsed sv.slots cs := by
          simp only [keysUsed, hitems]
        rw [hkeys, ← ih sv, guardedRun_cons_of_no_items hitems]
      · have hkeys : keysUsed sv.slots (c :: cs) =
            (sv.slots.assign items).k :: keysUsed (sv.slots.assign items) cs := by
          simp only [keysUsed, hitems]
        rw [hkeys, List.forall_mem_cons]
        by_cases hpos : 0 ≤ (sv.slots.assign items).k.toInt
        · obtain ⟨storage, hstep⟩ := guardedRun_cons_of_nonneg hitems hpos
          rw [hstep, ih, and_iff_right hpos]
        · exact iff_of_false (not_guardedRun_of_negative hitems (by omega)) fun h => hpos h.1

/-- The line `G -1` reads `storage[-1]`. -/
theorem negative_key_outOfRange :
    ¬ GuardedRun (.initial ⟨0, 0, 0⟩) [.accepted (ofBytes [71, 32, 45, 49, 10]) 7] := by
  rintro ⟨out, sv', ⟨hrun, -⟩, -⟩
  have hnone : iteration (.initial ⟨0, 0, 0⟩) (.accepted (ofBytes [71, 32, 45, 49, 10]) 7) = none := rfl
  rw [hnone] at hrun
  contradiction

end TlpiExercises.KvServer
