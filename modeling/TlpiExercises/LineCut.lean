import Mathlib.Data.List.Basic
import Mathlib.Tactic

/-!
# Cutting a sequence into lines

A line ends after its first terminator, or with the sequence. Cutting loses,
duplicates and reorders nothing: the lines followed by what is left give the
sequence back.
-/
namespace TlpiExercises

variable {α : Type*} [DecidableEq α]

/-- The first line, with its terminator if it has one, and the rest. -/
def cutLine (nl : α) : List α → List α × List α
  | [] => ([], [])
  | c :: cs => if c = nl then ([c], cs) else (c :: (cutLine nl cs).1, (cutLine nl cs).2)

/-- The first `k` lines and the rest. -/
def cutLines (nl : α) : ℕ → List α → List (List α) × List α
  | 0, l => ([], l)
  | k + 1, l =>
      let c := cutLine nl l
      let t := cutLines nl k c.2
      (c.1 :: t.1, t.2)

/-- A terminator stands at most at the end. -/
def IsLine (nl : α) (line : List α) : Prop := nl ∉ line.dropLast

theorem cutLine_append (nl : α) (l : List α) : (cutLine nl l).1 ++ (cutLine nl l).2 = l := by
  induction l with
  | nil => rfl
  | cons c cs ih =>
      by_cases h : c = nl
      · simp [cutLine, h]
      · simpa [cutLine, h] using ih

theorem cutLine_subset (nl : α) (l : List α) : (cutLine nl l).1 ⊆ l ∧ (cutLine nl l).2 ⊆ l := by
  have happend := cutLine_append nl l
  refine ⟨fun c hc => ?_, fun c hc => ?_⟩
  · exact happend ▸ List.mem_append_left _ hc
  · exact happend ▸ List.mem_append_right _ hc

theorem cutLine_of_notMem {nl : α} {l : List α} (h : nl ∉ l) : cutLine nl l = (l, []) := by
  induction l with
  | nil => rfl
  | cons c cs ih =>
      obtain ⟨hc, hcs⟩ : nl ≠ c ∧ nl ∉ cs := by simpa using h
      simp [cutLine, Ne.symm hc, ih hcs]

theorem cutLine_of_terminated {nl : α} {body : List α} (h : nl ∉ body) (rest : List α) :
    cutLine nl (body ++ nl :: rest) = (body ++ [nl], rest) := by
  induction body with
  | nil => simp [cutLine]
  | cons c cs ih =>
      obtain ⟨hc, hcs⟩ : nl ≠ c ∧ nl ∉ cs := by simpa using h
      simp [cutLine, Ne.symm hc, ih hcs]

/-- A cut line is a line, and it is unterminated only at the end of the sequence. -/
theorem cutLine_isLine (nl : α) (l : List α) :
    IsLine nl (cutLine nl l).1 ∧ (nl ∈ (cutLine nl l).1 ∨ (cutLine nl l).2 = []) := by
  by_cases h : nl ∈ l
  · obtain ⟨body, rest, rfl, hbody⟩ := List.eq_append_cons_of_mem h
    rw [cutLine_of_terminated hbody]
    exact ⟨by simpa [IsLine] using hbody, .inl (by simp)⟩
  · rw [cutLine_of_notMem h]
    exact ⟨fun hm => h (List.dropLast_subset l hm), .inr rfl⟩

/-- Removing what is no terminator before or after the cut makes no difference. -/
theorem cutLine_filter {nl : α} {p : α → Bool} (hp : p nl) (l : List α) :
    cutLine nl (l.filter p) = ((cutLine nl l).1.filter p, (cutLine nl l).2.filter p) := by
  induction l with
  | nil => rfl
  | cons c cs ih =>
      by_cases hc : c = nl
      · simp [cutLine, hc, hp]
      · by_cases hpc : p c
        · simp [cutLine, hc, hpc, ih]
        · simp [cutLine, hc, hpc, ih]

theorem cutLines_filter {nl : α} {p : α → Bool} (hp : p nl) (k : ℕ) (l : List α) :
    (cutLines nl k (l.filter p)).1 = (cutLines nl k l).1.map (List.filter p) := by
  induction k generalizing l with
  | zero => rfl
  | succ k ih => simp [cutLines, cutLine_filter hp, ih]

theorem cutLines_flatten (nl : α) (k : ℕ) (l : List α) :
    (cutLines nl k l).1.flatten ++ (cutLines nl k l).2 = l := by
  induction k generalizing l with
  | zero => rfl
  | succ k ih => simp [cutLines, List.append_assoc, ih, cutLine_append]

theorem cutLines_isLine (nl : α) (k : ℕ) (l : List α) :
    ∀ line ∈ (cutLines nl k l).1, IsLine nl line := by
  induction k generalizing l with
  | zero => simp [cutLines]
  | succ k ih =>
      intro line hline
      rcases List.mem_cons.mp hline with rfl | hline
      · exact (cutLine_isLine nl l).1
      · exact ih _ line hline

end TlpiExercises
