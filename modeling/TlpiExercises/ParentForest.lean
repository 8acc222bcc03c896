import Mathlib.Data.Fintype.Basic
import Mathlib.Data.List.Nodup
import Mathlib.Data.List.TakeWhile
import Mathlib.Logic.Relation
import Mathlib.Order.WellFounded
import Mathlib.Tactic

/-!
# Forests given by parent links

A list of nodes with a parent each, every node listed once. The parents need not be
listed themselves, and the links may form cycles. A node that is not listed has no
parent; a walk from such a root visits what hangs off it exactly once and ends, since
no cycle can be reached from it.
-/
namespace TlpiExercises.ParentForest

variable {α : Type*} {links : List (α × α)}

/-- The listed nodes; a link is a node and its parent. -/
def nodes (links : List (α × α)) : List α := links.map Prod.fst

/-- `u` is the parent of `v`. -/
def Parent (links : List (α × α)) (u v : α) : Prop := (v, u) ∈ links

/-- `u` is `v` or an ancestor of it. -/
abbrev Above (links : List (α × α)) : α → α → Prop := Relation.ReflTransGen (Parent links)

theorem Parent.mem {u v : α} (h : Parent links u v) : v ∈ nodes links :=
  List.mem_map.mpr ⟨(v, u), h, rfl⟩

theorem exists_parent {v : α} (h : v ∈ nodes links) : ∃ u, Parent links u v := by
  obtain ⟨⟨v', u⟩, hmem, rfl⟩ := List.mem_map.mp h
  exact ⟨u, hmem⟩

theorem Parent.unique (h : (nodes links).Nodup) {u u' v : α} (hu : Parent links u v)
    (hu' : Parent links u' v) : u = u' :=
  congrArg Prod.snd (List.inj_on_of_nodup_map h hu hu' rfl)

/-- Only a root itself is above a root. -/
theorem eq_of_above_root {u r : α} (hr : r ∉ nodes links) (h : Above links u r) : u = r := by
  rcases Relation.ReflTransGen.cases_tail h with heq | ⟨p, -, hp⟩
  · exact heq.symm
  · exact absurd hp.mem hr

/-- The ancestors of a node lie on one line. -/
theorem above_total (h : (nodes links).Nodup) {u v w : α} (hu : Above links u w)
    (hv : Above links v w) : Above links u v ∨ Above links v u := by
  induction hu with
  | refl => exact .inr hv
  | tail hup hpw ih =>
      rcases Relation.ReflTransGen.cases_tail hv with rfl | ⟨p, hvp, hp⟩
      · exact .inl (hup.tail hpw)
      · rw [hp.unique h hpw] at hvp
        exact ih hvp

/-- No cycle can be reached from a root. -/
theorem not_above_parent (h : (nodes links).Nodup) {r u p : α} (hr : r ∉ nodes links)
    (hru : Above links r u) (hp : Parent links p u) : ¬ Above links u p := by
  induction hru generalizing p with
  | refl => exact absurd hp.mem hr
  | tail hrb hbu ih =>
      intro hup
      rw [hp.unique h hbu] at hup
      rcases Relation.ReflTransGen.cases_tail hup with rfl | ⟨q, huq, hq⟩
      · exact ih hbu .refl
      · exact ih hq (.head hbu huq)

/-- Two children have nothing below them in common. -/
theorem not_above_both (h : (nodes links).Nodup) {r u v v' w : α} (hr : r ∉ nodes links)
    (hru : Above links r u) (hv : Parent links u v) (hv' : Parent links u v') (hne : v ≠ v')
    (hvw : Above links v w) (hvw' : Above links v' w) : False := by
  have hcontra : ∀ {a b}, Parent links u a → Parent links u b → a ≠ b → ¬ Above links a b := by
    intro a b ha hb hab habove
    rcases Relation.ReflTransGen.cases_tail habove with rfl | ⟨p, hap, hp⟩
    · exact hab rfl
    · rw [hp.unique h hb] at hap
      exact not_above_parent h hr (hru.tail ha) ha hap
  rcases above_total h hvw hvw' with habove | habove
  · exact hcontra hv hv' hne habove
  · exact hcontra hv' hv hne.symm habove

/-- In an acyclic forest every listed node is below a root. -/
theorem exists_root (hacyclic : ∀ u, ¬ Relation.TransGen (Parent links) u u) {v : α}
    (hv : v ∈ nodes links) : ∃ r, r ∉ nodes links ∧ Above links r v := by
  let below (a b : {x // x ∈ nodes links}) : Prop := Relation.TransGen (Parent links) a.val b.val
  have : Finite {x // x ∈ nodes links} := List.finite_toSet (nodes links)
  have : IsTrans _ below := ⟨fun _ _ _ => Relation.TransGen.trans⟩
  have : Std.Irrefl below := ⟨fun a => hacyclic a.val⟩
  have hwf := Finite.wellFounded_of_trans_of_irrefl below
  suffices hall : ∀ a : {x // x ∈ nodes links}, ∃ r, r ∉ nodes links ∧ Above links r a.val from
    hall ⟨v, hv⟩
  intro a
  induction a using hwf.induction with
  | _ a ih =>
      obtain ⟨p, hp⟩ := exists_parent a.property
      by_cases hmem : p ∈ nodes links
      · obtain ⟨r, hr, habove⟩ := ih ⟨p, hmem⟩ (.single hp)
        exact ⟨r, hr, habove.tail hp⟩
      · exact ⟨p, hmem, .single hp⟩

/-- The nodes strictly below `u`. -/
def below (links : List (α × α)) (u : α) : Set α := {w | Relation.TransGen (Parent links) u w}

theorem below_subset (u : α) : below links u ⊆ {w | w ∈ nodes links} := by
  intro w hw
  obtain ⟨p, -, hp⟩ := Relation.TransGen.tail'_iff.mp hw
  exact hp.mem

theorem below_finite (u : α) : (below links u).Finite :=
  (List.finite_toSet (nodes links)).subset (below_subset u)

/-- Below a root, a child has fewer nodes below it than its parent. -/
theorem ncard_below_lt (h : (nodes links).Nodup) {r u v : α} (hr : r ∉ nodes links)
    (hru : Above links r u) (hv : Parent links u v) :
    (below links v).ncard < (below links u).ncard := by
  refine Set.ncard_lt_ncard ?_ (below_finite u)
  refine ⟨fun w hw => .head hv hw, fun hsub => ?_⟩
  have hvv : v ∈ below links v := hsub (.single hv)
  obtain ⟨p, hvp, hp⟩ := Relation.TransGen.tail'_iff.mp hvv
  exact not_above_parent h hr (hru.tail hv) hp hvp

/-- The nodes strictly above `w`. -/
def ancestors (links : List (α × α)) (w : α) : Set α := {a | Relation.TransGen (Parent links) a w}

theorem ancestors_finite (w : α) : (ancestors links w).Finite := by
  refine (List.finite_toSet (links.map Prod.snd)).subset ?_
  intro a ha
  obtain ⟨v, hv, -⟩ := Relation.TransGen.head'_iff.mp ha
  exact List.mem_map.mpr ⟨(v, a), hv, rfl⟩

theorem ancestors_root {r : α} (hr : r ∉ nodes links) : ancestors links r = ∅ := by
  refine Set.eq_empty_of_forall_notMem ?_
  intro a ha
  obtain ⟨p, -, hp⟩ := Relation.TransGen.tail'_iff.mp ha
  exact hr hp.mem

theorem ancestors_child (h : (nodes links).Nodup) {u v : α} (hv : Parent links u v) :
    ancestors links v = insert u (ancestors links u) := by
  ext a
  constructor
  · intro ha
    obtain ⟨p, hap, hp⟩ := Relation.TransGen.tail'_iff.mp ha
    rw [hp.unique h hv] at hap
    exact Relation.reflTransGen_iff_eq_or_transGen.mp hap |>.imp Eq.symm id
  · rintro (rfl | ha)
    · exact .single hv
    · exact Relation.TransGen.tail ha hv

/-- Below a root, a child has one ancestor more than its parent. -/
theorem ncard_ancestors_child (h : (nodes links).Nodup) {r u v : α} (hr : r ∉ nodes links)
    (hru : Above links r u) (hv : Parent links u v) :
    (ancestors links v).ncard = (ancestors links u).ncard + 1 := by
  rw [ancestors_child h hv, Set.ncard_insert_of_notMem ?_ (ancestors_finite u)]
  intro huu
  obtain ⟨p, hup, hp⟩ := Relation.TransGen.tail'_iff.mp huu
  exact not_above_parent h hr hru hp hup

/-- Each node of the list is followed by the nodes below it, up to the next one that is
not deeper. -/
def Nested (links : List (α × α)) (out : List (ℕ × α)) : Prop :=
  ∀ before v after, out = before ++ v :: after →
    ∀ w, w ∈ (after.takeWhile (v.1 < ·.1)).map Prod.snd ↔ Relation.TransGen (Parent links) v.2 w

theorem takeWhile_append_of_head {β : Type*} {p : β → Bool} {rest : List β}
    (h : ∀ b ∈ rest.head?, p b = false) (l : List β) :
    (l ++ rest).takeWhile p = l.takeWhile p := by
  induction l with
  | nil =>
      cases rest with
      | nil => rfl
      | cons b rest => simp [h b (by simp)]
  | cons a l ih => simp only [List.cons_append, List.takeWhile_cons, ih]

/-- A list may go on with a node that is no deeper than any before it. -/
theorem Nested.append {out rest : List (ℕ × α)} (h : Nested links out) (hrest : Nested links rest)
    (hhead : ∀ w ∈ rest.head?, ∀ v ∈ out, w.1 ≤ v.1) : Nested links (out ++ rest) := by
  intro before v after heq
  rcases List.append_eq_append_iff.mp heq with ⟨mid, rfl, hmid⟩ | ⟨mid, rfl, hmid⟩
  · exact hrest mid v after hmid
  · cases mid with
    | nil =>
        rw [List.nil_append] at hmid
        exact hrest [] v after (by simp [hmid])
    | cons w mid =>
        rw [List.cons_append] at hmid
        obtain ⟨rfl, rfl⟩ := List.cons.inj hmid
        have hstop : ∀ w ∈ rest.head?, decide (v.1 < w.1) = false := by
          intro w hw
          have hle := hhead w hw v (by simp)
          simpa using hle
        rw [takeWhile_append_of_head hstop]
        exact h before v mid rfl

/-- Lists that start at the same depth and stay there or below may follow each other. -/
theorem nested_flatten {d : ℕ} {cs : List (List (ℕ × α))} (hnested : ∀ c ∈ cs, Nested links c)
    (hhead : ∀ c ∈ cs, ∀ v ∈ c.head?, v.1 = d) (hdepth : ∀ c ∈ cs, ∀ v ∈ c, d ≤ v.1) :
    Nested links cs.flatten := by
  induction cs with
  | nil =>
      intro before v after heq
      simp at heq
  | cons c cs ih =>
      rw [List.forall_mem_cons] at hnested hhead hdepth
      refine hnested.1.append (ih hnested.2 hhead.2 hdepth.2) ?_
      intro w hw v hv
      rw [List.head?_flatten] at hw
      obtain ⟨c', hc', hwc'⟩ := List.exists_of_findSome?_eq_some hw
      rw [hhead.2 c' hc' w hwc']
      exact hdepth.1 v hv

variable [DecidableEq α]

theorem ncard_below_le (u : α) : (below links u).ncard ≤ links.length := by
  have hsub : below links u ⊆ ((nodes links).toFinset : Set α) := by
    intro w hw
    simpa using below_subset u hw
  calc (below links u).ncard
      ≤ ((nodes links).toFinset : Set α).ncard := Set.ncard_le_ncard hsub (Finset.finite_toSet _)
    _ = (nodes links).toFinset.card := Set.ncard_coe_finset _
    _ ≤ (nodes links).length := List.toFinset_card_le _
    _ = links.length := List.length_map _

/-- The nodes with parent `u`, in the order of the list. -/
def children (links : List (α × α)) (u : α) : List α :=
  (links.filter fun e => e.2 = u).map Prod.fst

@[simp] theorem mem_children {u v : α} : v ∈ children links u ↔ Parent links u v := by
  simp [children, Parent]

theorem children_nodup (h : (nodes links).Nodup) (u : α) : (children links u).Nodup :=
  h.sublist (List.filter_sublist.map Prod.fst)

/-- The walk from `u`: each node before its children, with its depth. Fuel bounds
the depth of the recursion. -/
def walk (links : List (α × α)) : ℕ → α → ℕ → Option (List (ℕ × α))
  | 0, _, _ => none
  | fuel + 1, u, h =>
      ((children links u).mapM fun v => walk links fuel v (h + 1)).map fun subtrees =>
        (h, u) :: subtrees.flatten

section MapM

variable {β γ δ : Type*}

theorem mapM_cons_eq_some {f : β → Option γ} {b : β} {l : List β} {cs : List γ} :
    (b :: l).mapM f = some cs ↔ ∃ c cs', f b = some c ∧ l.mapM f = some cs' ∧ cs = c :: cs' := by
  rw [List.mapM_cons]
  simp only [Option.bind_eq_bind, Option.bind_eq_some_iff, Option.pure_def, Option.some.injEq]
  constructor
  · rintro ⟨c, hc, cs', hcs, rfl⟩
    exact ⟨c, cs', hc, hcs, rfl⟩
  · rintro ⟨c, cs', hc, hcs, rfl⟩
    exact ⟨c, hc, cs', hcs, rfl⟩

theorem mapM_isSome {f : β → Option γ} {l : List β} (h : ∀ b ∈ l, (f b).isSome) :
    (l.mapM f).isSome := by
  induction l with
  | nil => rfl
  | cons b l ih =>
      obtain ⟨c, hc⟩ := Option.isSome_iff_exists.mp (h b (by simp))
      obtain ⟨cs, hcs⟩ := Option.isSome_iff_exists.mp (ih fun b' hb => h b' (by simp [hb]))
      rw [mapM_cons_eq_some.mpr ⟨c, cs, hc, hcs, rfl⟩]
      rfl

theorem exists_of_mem_mapM {f : β → Option γ} {l : List β} {cs : List γ} (h : l.mapM f = some cs)
    {c : γ} (hc : c ∈ cs) : ∃ b ∈ l, f b = some c := by
  induction l generalizing cs with
  | nil =>
      obtain rfl : [] = cs := by simpa using h
      contradiction
  | cons b l ih =>
      obtain ⟨c', cs', hc', hcs, rfl⟩ := mapM_cons_eq_some.mp h
      rcases List.mem_cons.mp hc with rfl | hc
      · exact ⟨b, by simp, hc'⟩
      · obtain ⟨b', hb', hf⟩ := ih hcs hc
        exact ⟨b', by simp [hb'], hf⟩

theorem mapM_congr_some {f g : β → Option γ} {l : List β} {cs : List γ} (h : l.mapM f = some cs)
    (hfg : ∀ b c, f b = some c → g b = some c) : l.mapM g = some cs := by
  induction l generalizing cs with
  | nil => simpa using h
  | cons b l ih =>
      obtain ⟨c, cs', hc, hcs, rfl⟩ := mapM_cons_eq_some.mp h
      exact mapM_cons_eq_some.mpr ⟨c, cs', hfg b c hc, ih hcs, rfl⟩

theorem mapM_map_map (f : β → Option γ) (g : γ → δ) (l : List β) :
    (l.mapM fun b => (f b).map g) = (l.mapM f).map (List.map g) := by
  induction l with
  | nil => rfl
  | cons b l ih =>
      rw [List.mapM_cons, List.mapM_cons, ih]
      cases f b <;> cases l.mapM f <;> rfl

variable {f : β → Option (List γ)} {g : γ → δ} {P : β → δ → Prop} {l : List β} {cs : List (List γ)}

/-- What the lists computed for the elements of `l` hold together, if `P` says what
each of them holds. -/
theorem mem_flatten_mapM (h : l.mapM f = some cs)
    (hP : ∀ b ∈ l, ∀ c, f b = some c → ∀ x, x ∈ c.map g ↔ P b x) (x : δ) :
    x ∈ cs.flatten.map g ↔ ∃ b ∈ l, P b x := by
  induction l generalizing cs with
  | nil =>
      obtain rfl : [] = cs := by simpa using h
      simp
  | cons b l ih =>
      obtain ⟨c, cs', hc, hcs, rfl⟩ := mapM_cons_eq_some.mp h
      have hrest := ih hcs fun b' hb' => hP b' (by simp [hb'])
      rw [List.flatten_cons, List.map_append, List.mem_append, hrest, hP b (by simp) c hc]
      simp

/-- They hold nothing twice if none of them does and they share nothing. -/
theorem nodup_flatten_mapM (h : l.mapM f = some cs) (hl : l.Nodup)
    (hP : ∀ b ∈ l, ∀ c, f b = some c → ∀ x, x ∈ c.map g ↔ P b x)
    (hnodup : ∀ b ∈ l, ∀ c, f b = some c → (c.map g).Nodup)
    (hdisjoint : ∀ b ∈ l, ∀ b' ∈ l, b ≠ b' → ∀ x, P b x → ¬ P b' x) :
    (cs.flatten.map g).Nodup := by
  induction l generalizing cs with
  | nil =>
      obtain rfl : [] = cs := by simpa using h
      simp
  | cons b l ih =>
      obtain ⟨c, cs', hc, hcs, rfl⟩ := mapM_cons_eq_some.mp h
      obtain ⟨hb, hl⟩ := List.nodup_cons.mp hl
      have hP' : ∀ b' ∈ l, ∀ c, f b' = some c → ∀ x, x ∈ c.map g ↔ P b' x :=
        fun b' hb' => hP b' (by simp [hb'])
      rw [List.flatten_cons, List.map_append, List.nodup_append']
      refine ⟨hnodup b (by simp) c hc, ?_, ?_⟩
      · exact ih hcs hl hP' (fun b' hb' => hnodup b' (by simp [hb']))
          (fun b' hb' b'' hb'' => hdisjoint b' (by simp [hb']) b'' (by simp [hb'']))
      · intro x hx hx'
        obtain ⟨b', hb', hx'⟩ := (mem_flatten_mapM hcs hP' x).mp hx'
        have hne : b ≠ b' := fun heq => hb (heq ▸ hb')
        exact hdisjoint b (by simp) b' (by simp [hb']) hne x ((hP b (by simp) c hc x).mp hx) hx'

end MapM

variable {fuel d : ℕ} {r u : α} {out : List (ℕ × α)}

/-- The nodes a walk visits are those at or below its start. -/
theorem mem_walk (hwalk : walk links fuel u d = some out) (w : α) :
    w ∈ out.map Prod.snd ↔ Above links u w := by
  induction fuel generalizing u d out w with
  | zero => contradiction
  | succ fuel ih =>
      obtain ⟨subtrees, hsub, rfl⟩ := Option.map_eq_some_iff.mp hwalk
      rw [List.map_cons, List.mem_cons, mem_flatten_mapM hsub (fun v _ c hc => ih hc) w]
      constructor
      · rintro (rfl | ⟨v, hv, hvw⟩)
        · exact .refl
        · exact .head (mem_children.mp hv) hvw
      · intro huw
        rcases Relation.ReflTransGen.cases_head huw with rfl | ⟨v, hv, hvw⟩
        · exact .inl rfl
        · exact .inr ⟨v, mem_children.mpr hv, hvw⟩

/-- A walk below a root visits no node twice. -/
theorem walk_nodup (h : (nodes links).Nodup) (hr : r ∉ nodes links) (hru : Above links r u)
    (hwalk : walk links fuel u d = some out) : (out.map Prod.snd).Nodup := by
  induction fuel generalizing u d out with
  | zero => contradiction
  | succ fuel ih =>
      obtain ⟨subtrees, hsub, rfl⟩ := Option.map_eq_some_iff.mp hwalk
      have hmem : ∀ v ∈ children links u, ∀ c, walk links fuel v (d + 1) = some c → ∀ x,
          x ∈ c.map Prod.snd ↔ Above links v x := fun v _ c hc => mem_walk hc
      rw [List.map_cons, List.nodup_cons, mem_flatten_mapM hsub hmem]
      refine ⟨?_, nodup_flatten_mapM hsub (children_nodup h u) hmem ?_ ?_⟩
      · rintro ⟨v, hv, hvu⟩
        have hv := mem_children.mp hv
        exact not_above_parent h hr (hru.tail hv) hv hvu
      · intro v hv c hc
        exact ih (hru.tail (mem_children.mp hv)) hc
      · intro v hv v' hv' hne x hx hx'
        exact not_above_both h hr hru (mem_children.mp hv) (mem_children.mp hv') hne hx hx'

/-- A walk below a root ends. -/
theorem walk_isSome (h : (nodes links).Nodup) (hr : r ∉ nodes links) (hru : Above links r u)
    (hfuel : (below links u).ncard < fuel) : (walk links fuel u d).isSome := by
  induction fuel generalizing u d with
  | zero => contradiction
  | succ fuel ih =>
      rw [walk, Option.isSome_map]
      refine mapM_isSome ?_
      intro v hv
      have hlt := ncard_below_lt h hr hru (mem_children.mp hv)
      exact ih (hru.tail (mem_children.mp hv)) (by omega)

theorem walk_root_isSome (h : (nodes links).Nodup) (hr : r ∉ nodes links) (d : ℕ) :
    (walk links (links.length + 1) r d).isSome :=
  walk_isSome h hr .refl (Nat.lt_succ_of_le (ncard_below_le r))

/-- More fuel changes nothing. -/
theorem walk_succ (hwalk : walk links fuel u d = some out) : walk links (fuel + 1) u d = some out := by
  induction fuel generalizing u d out with
  | zero => contradiction
  | succ fuel ih =>
      obtain ⟨subtrees, hsub, rfl⟩ := Option.map_eq_some_iff.mp hwalk
      rw [walk, mapM_congr_some hsub (fun v c hc => ih hc)]
      rfl

theorem walk_root_fuel (h : (nodes links).Nodup) (hr : r ∉ nodes links) (d : ℕ)
    (hfuel : links.length < fuel) : walk links fuel r d = walk links (links.length + 1) r d := by
  obtain ⟨out, hout⟩ := Option.isSome_iff_exists.mp (walk_root_isSome h hr d)
  rw [hout]
  induction fuel, hfuel using Nat.le_induction with
  | base => exact hout
  | succ fuel hle ih => exact walk_succ ih

theorem walk_head (hwalk : walk links fuel u d = some out) : out.head? = some (d, u) := by
  cases fuel with
  | zero => contradiction
  | succ fuel =>
      obtain ⟨subtrees, -, rfl⟩ := Option.map_eq_some_iff.mp hwalk
      rfl

/-- A walk visits nothing above the depth it starts with. -/
theorem le_depth_of_mem_walk (hwalk : walk links fuel u d = some out) : ∀ v ∈ out, d ≤ v.1 := by
  induction fuel generalizing u d out with
  | zero => contradiction
  | succ fuel ih =>
      obtain ⟨subtrees, hsub, rfl⟩ := Option.map_eq_some_iff.mp hwalk
      intro v hv
      rcases List.mem_cons.mp hv with rfl | hv
      · exact le_rfl
      · obtain ⟨c, hc, hvc⟩ := List.mem_flatten.mp hv
        obtain ⟨b, -, hb⟩ := exists_of_mem_mapM hsub hc
        exact (Nat.le_succ d).trans (ih hb v hvc)

/-- The depth of a node is the number of its ancestors, if this holds at the start. -/
theorem walk_depth (h : (nodes links).Nodup) (hr : r ∉ nodes links) (hru : Above links r u)
    (hd : d = (ancestors links u).ncard) (hwalk : walk links fuel u d = some out) :
    ∀ v ∈ out, v.1 = (ancestors links v.2).ncard := by
  induction fuel generalizing u d out with
  | zero => contradiction
  | succ fuel ih =>
      obtain ⟨subtrees, hsub, rfl⟩ := Option.map_eq_some_iff.mp hwalk
      intro v hv
      rcases List.mem_cons.mp hv with rfl | hv
      · exact hd
      · obtain ⟨c, hc, hvc⟩ := List.mem_flatten.mp hv
        obtain ⟨b, hb, hwalk⟩ := exists_of_mem_mapM hsub hc
        have hchild := mem_children.mp hb
        have hdepth := ncard_ancestors_child h hr hru hchild
        exact ih (hru.tail hchild) (by omega) hwalk v hvc

/-- In the list of a walk each node is followed by what is below it. -/
theorem walk_nested (hwalk : walk links fuel u d = some out) : Nested links out := by
  induction fuel generalizing u d out with
  | zero => contradiction
  | succ fuel ih =>
      obtain ⟨subtrees, hsub, rfl⟩ := Option.map_eq_some_iff.mp hwalk
      have hwalks : ∀ c ∈ subtrees, ∃ v, walk links fuel v (d + 1) = some c := fun c hc =>
        (exists_of_mem_mapM hsub hc).imp fun _ hv => hv.2
      have hdepth : ∀ c ∈ subtrees, ∀ v ∈ c, d + 1 ≤ v.1 := fun c hc =>
        (hwalks c hc).elim fun _ hv => le_depth_of_mem_walk hv
      intro before v after heq
      cases before with
      | nil =>
          -- everything after the start is deeper
          obtain ⟨rfl, rfl⟩ := List.cons.inj heq
          have hall : subtrees.flatten.takeWhile (d < ·.1) = subtrees.flatten := by
            rw [List.takeWhile_eq_self_iff]
            intro v hv
            obtain ⟨c, hc, hvc⟩ := List.mem_flatten.mp hv
            exact decide_eq_true (hdepth c hc v hvc)
          intro w
          rw [hall, mem_flatten_mapM hsub (fun v _ c hc => mem_walk hc), Relation.TransGen.head'_iff]
          simp only [mem_children]
      | cons b before =>
          obtain ⟨-, hrest⟩ := List.cons.inj heq
          have hhead : ∀ c ∈ subtrees, ∀ v ∈ c.head?, v.1 = d + 1 := by
            intro c hc v hv
            obtain ⟨b, hb⟩ := hwalks c hc
            rw [walk_head hb] at hv
            obtain rfl := Option.some.inj hv
            rfl
          have hnested : ∀ c ∈ subtrees, Nested links c := fun c hc =>
            (hwalks c hc).elim fun _ hv => ih hv
          exact nested_flatten hnested hhead hdepth before v after hrest

end TlpiExercises.ParentForest
