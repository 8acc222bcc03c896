import Mathlib.Tactic

/-!
# Outlines of trees

An outline lists the nodes of a tree with their levels, every node before what is below it or
every node after that. The nodes below a node are those next to it that have a greater level, so
that the outline determines the tree.
-/
namespace TlpiExercises

variable {α β : Type*}

/-- Two lists that start with elements of one kind, up to an element of another kind. -/
theorem append_inj_of_forall {p : α → Prop} {xs xs' ys ys' : List α} (hxs : ∀ x ∈ xs, p x)
    (hxs' : ∀ x ∈ xs', p x) (hys : ∀ y ∈ ys.head?, ¬ p y) (hys' : ∀ y ∈ ys'.head?, ¬ p y)
    (h : xs ++ ys = xs' ++ ys') : xs = xs' ∧ ys = ys' := by
  induction xs generalizing xs' with
  | nil =>
      cases xs' with
      | nil => exact ⟨rfl, h⟩
      | cons x' xs' =>
          have hhead : ys.head? = some x' := congrArg List.head? h
          exact absurd (hxs' x' List.mem_cons_self) (hys x' hhead)
  | cons x xs ih =>
      cases xs' with
      | nil =>
          have hhead : ys'.head? = some x := congrArg List.head? h.symm
          exact absurd (hxs x List.mem_cons_self) (hys' x hhead)
      | cons x' xs' =>
          obtain ⟨rfl, htail⟩ := List.cons.inj h
          obtain ⟨rfl, hrest⟩ := ih (fun y hy => hxs y (List.mem_cons_of_mem _ hy))
            (fun y hy => hxs' y (List.mem_cons_of_mem _ hy)) htail
          exact ⟨rfl, hrest⟩

/-- Texts that end where the separator is for the first time. -/
theorem flatMap_terminated_injective {sep : α} {lines lines' : List (List α)}
    (hlines : ∀ l ∈ lines, sep ∉ l) (hlines' : ∀ l ∈ lines', sep ∉ l)
    (h : lines.flatMap (· ++ [sep]) = lines'.flatMap (· ++ [sep])) : lines = lines' := by
  induction lines generalizing lines' with
  | nil =>
      cases lines' with
      | nil => rfl
      | cons l' lines' => simp at h
  | cons l lines ih =>
      cases lines' with
      | nil => simp at h
      | cons l' lines' =>
          simp only [List.flatMap_cons, List.append_assoc, List.singleton_append] at h
          have hne : ∀ k : List α, sep ∉ k → ∀ x ∈ k, x ≠ sep := fun k hk x hx heq => hk (heq ▸ hx)
          obtain ⟨rfl, hrest⟩ := append_inj_of_forall (hne l (hlines l List.mem_cons_self))
            (hne l' (hlines' l' List.mem_cons_self)) (by simp) (by simp) h
          rw [ih (fun k hk => hlines k (List.mem_cons_of_mem _ hk))
            (fun k hk => hlines' k (List.mem_cons_of_mem _ hk)) (List.cons.inj hrest).2]

theorem map_eq_map_of_imp {γ : Type*} {f : α → β} {g : α → γ} {l l' : List α}
    (hfg : ∀ x ∈ l, ∀ y ∈ l', f x = f y → g x = g y) (h : l.map f = l'.map f) :
    l.map g = l'.map g := by
  induction l generalizing l' with
  | nil => rw [List.map_eq_nil_iff.mp h.symm]
  | cons x l ih =>
      cases l' with
      | nil => simp at h
      | cons y l' =>
          obtain ⟨hhead, htail⟩ := List.cons.inj h
          have hrest := ih (fun x hx y hy => hfg x (List.mem_cons_of_mem _ hx) y
            (List.mem_cons_of_mem _ hy)) htail
          rw [List.map_cons, List.map_cons, hrest,
            hfg x List.mem_cons_self y List.mem_cons_self hhead]

/-- Trees next to each other: the root of the first one, what is below it, and the others. -/
inductive Forest (α : Type*) where
  | nil
  | tree (root : α) (below others : Forest α)
  deriving DecidableEq, Repr

namespace Forest

def map (f : α → β) : Forest α → Forest β
  | nil => nil
  | tree root below others => tree (f root) (below.map f) (others.map f)

/-- All nodes. -/
def nodes : Forest α → List α
  | nil => []
  | tree root below others => root :: (below.nodes ++ others.nodes)

/-- A node and what is below it, in one of the two orders. -/
def visit (after : Bool) (own : α) (inside : List α) : List α :=
  if after then inside ++ [own] else own :: inside

/-- The nodes with their levels. -/
def outline (after : Bool) : ℕ → Forest α → List (ℕ × α)
  | _, nil => []
  | level, tree root below others =>
      visit after (level, root) (outline after (level + 1) below) ++ outline after level others

variable {after : Bool} {level : ℕ}

theorem mem_visit {own x : α} {inside : List α} :
    x ∈ visit after own inside ↔ x = own ∨ x ∈ inside := by
  cases after <;> simp [visit, or_comm]

theorem map_visit (f : α → β) (own : α) (inside : List α) :
    (visit after own inside).map f = visit after (f own) (inside.map f) := by
  cases after <;> simp [visit]

theorem level_le_of_mem_outline {t : Forest α} {x : ℕ × α} (h : x ∈ t.outline after level) :
    level ≤ x.1 := by
  induction t generalizing level with
  | nil => contradiction
  | tree root below others ihBelow ihOthers =>
      rw [outline, List.mem_append, mem_visit] at h
      rcases h with (rfl | h) | h
      · exact le_rfl
      · exact (Nat.le_succ level).trans (ihBelow h)
      · exact ihOthers h

theorem mem_nodes_of_mem_outline {t : Forest α} {x : ℕ × α} (h : x ∈ t.outline after level) :
    x.2 ∈ t.nodes := by
  induction t generalizing level with
  | nil => contradiction
  | tree root below others ihBelow ihOthers =>
      rw [outline, List.mem_append, mem_visit] at h
      rw [nodes, List.mem_cons, List.mem_append]
      rcases h with (rfl | h) | h
      · exact .inl rfl
      · exact .inr (.inl (ihBelow h))
      · exact .inr (.inr (ihOthers h))

theorem outline_map (f : α → β) (t : Forest α) :
    (t.map f).outline after level = (t.outline after level).map fun x => (x.1, f x.2) := by
  induction t generalizing level with
  | nil => rfl
  | tree root below others ihBelow ihOthers =>
      rw [map, outline, outline, List.map_append, map_visit, ihBelow, ihOthers]

theorem level_of_head?_outline {t : Forest α} {x : ℕ × α}
    (h : x ∈ (t.outline false level).head?) : x.1 = level := by
  cases t with
  | nil => contradiction
  | tree root below others =>
      obtain rfl : (level, root) = x := by simpa [outline, visit] using h
      rfl

/-- The outline determines the forest. -/
theorem outline_injective (after : Bool) (level : ℕ) :
    Function.Injective (outline (α := α) after level) := by
  intro t u h
  induction t generalizing level u with
  | nil =>
      cases u with
      | nil => rfl
      | tree root below others => cases after <;> simp [outline, visit] at h
  | tree root below others ihBelow ihOthers =>
      cases u with
      | nil => cases after <;> simp [outline, visit] at h
      | tree root' below' others' =>
          have hinside : ∀ (t : Forest α), ∀ x ∈ t.outline after (level + 1), level < x.1 :=
            fun t x hx => level_le_of_mem_outline hx
          cases after with
          | false =>
              obtain ⟨hroot, htail⟩ := List.cons.inj h
              have hothers : ∀ (t : Forest α), ∀ x ∈ (t.outline false level).head?, ¬ level < x.1 :=
                fun t x hx => (level_of_head?_outline hx).le.not_gt
              obtain ⟨hbelow, hrest⟩ := append_inj_of_forall (hinside below) (hinside below')
                (hothers others) (hothers others') htail
              rw [(Prod.mk.inj hroot).2, ihBelow _ hbelow, ihOthers _ hrest]
          | true =>
              simp only [outline, visit, if_true, List.append_assoc, List.singleton_append] at h
              obtain ⟨hbelow, hrest⟩ := append_inj_of_forall (hinside below) (hinside below')
                (by simp) (by simp) h
              obtain ⟨hroot, hrest⟩ := List.cons.inj hrest
              rw [(Prod.mk.inj hroot).2, ihBelow _ hbelow, ihOthers _ hrest]

end Forest

end TlpiExercises
