import TlpiExercises.KeyedList
import TlpiExercises.ProcessTree

/-!
# The order of the printed tree

On a snapshot in which every parent chain ends at 0 the loop over the possible roots
prints one tree, in pre-order. On any snapshot that lists no pid twice, cycles or not, every
call of `printTree` returns: a call starts at a pid that is no process of the snapshot, and
no cycle can be reached from there.
-/
namespace TlpiExercises.ProcessTree
open ParentForest

/-- Distinct pids within the tables, parents that are listed or 0, and chains of parents
that end at 0. -/
structure Consistent (ps : List Proc) : Prop where
  nonempty : ps ≠ []
  distinct : (ps.map Proc.pid).Nodup
  pid_range : ∀ p ∈ ps, 1 ≤ p.pid ∧ p.pid < maxProcCnt
  parent : ∀ p ∈ ps, p.ppid = 0 ∨ p.ppid ∈ ps.map Proc.pid
  chain : ∀ p ∈ ps, Above (links ps) 0 p.pid

/-- The name in the line of a pid: that of its process, if it is one. -/
def nameOf (ps : List Proc) (pid : ℕ) : List UInt8 :=
  ((KeyedList.lookup Proc.pid ps pid).map Proc.name).getD unknownProc

theorem nameOf_of_mem {ps : List Proc} (h : (ps.map Proc.pid).Nodup) {p : Proc} (hp : p ∈ ps) :
    nameOf ps p.pid = p.name := by
  rw [nameOf, KeyedList.lookup_of_mem h hp]
  rfl

theorem nameOf_of_notMem {ps : List Proc} {pid : ℕ} (h : pid ∉ ps.map Proc.pid) :
    nameOf ps pid = unknownProc := by
  rw [nameOf, KeyedList.lookup_eq_none_iff.mpr h]
  rfl

/-- The table of names after the scan. -/
theorem collect_name {t t' : Tables} {procs : List Entry} (hcol : t.collect procs = some t')
    (hnodup : ((snapshot procs).map Proc.pid).Nodup) :
    (∀ p ∈ snapshot procs, t'.name p.pid = p.name) ∧
      ∀ u, u ∉ (snapshot procs).map Proc.pid → t'.name u = t.name u := by
  induction procs generalizing t with
  | nil =>
      obtain rfl := Option.some.inj hcol
      exact ⟨by simp [snapshot], fun _ _ => rfl⟩
  | cons e es ih =>
      cases e with
      | gone pid => exact ih hcol hnodup
      | read p =>
          obtain ⟨t₁, hrec, hrest⟩ := Option.bind_eq_some_iff.mp hcol
          have hsnap : snapshot (.read p :: es) = p :: snapshot es := rfl
          rw [hsnap, List.map_cons, List.nodup_cons] at hnodup
          obtain ⟨hmem, hother⟩ := ih hrest hnodup.2
          obtain ⟨-, ⟨⟩⟩ := Option.ite_none_right_eq_some.mp hrec
          rw [hsnap, List.map_cons]
          refine ⟨?_, ?_⟩
          · intro q hq
            rcases List.mem_cons.mp hq with rfl | hq
            · rw [hother q.pid hnodup.1]
              exact Function.update_self ..
            · exact hmem q hq
          · intro u hu
            rw [List.mem_cons, not_or] at hu
            rw [hother u hu.2]
            exact Function.update_of_ne hu.1 ..

section Roots

variable {t : Tables} {ps : List Proc} {fuel : ℕ}

/-- A pid without children is no root. -/
theorem visitRoots_childless (h : t.Holds ps) {is : List ℕ}
    (his : ∀ i ∈ is, i ∉ nodes (links ps) → children (links ps) i = []) :
    visitRoots fuel is t = some [] := by
  induction is with
  | nil => rfl
  | cons i is ih =>
      have hroot : visitRoot fuel t i = some ([], t) := by
        by_cases hi : i ∈ nodes (links ps)
        · exact visitRoot_listed h hi
        · rw [visitRoot_unlisted h hi, if_pos (his i (by simp) hi)]
      rw [visitRoots, hroot, Option.bind_some, ih (fun j hj => his j (by simp [hj]))]
      rfl

theorem visitRoot_fuel (h : t.Holds ps) (hnodup : (nodes (links ps)).Nodup)
    (hfuel : ps.length < fuel) (i : ℕ) :
    visitRoot fuel t i = visitRoot (ps.length + 1) t i := by
  by_cases hi : i ∈ nodes (links ps)
  · rw [visitRoot_listed h hi, visitRoot_listed h hi]
  · have hlen : (links ps).length = ps.length := List.length_map _
    have hwalk := walk_root_fuel hnodup hi 0 (hlen.symm ▸ hfuel)
    rw [hlen] at hwalk
    rw [visitRoot_unlisted h hi, visitRoot_unlisted h hi, hwalk]

/-- More fuel than processes changes nothing. -/
theorem visitRoots_fuel (h : t.Holds ps) (hnodup : (nodes (links ps)).Nodup)
    (hfuel : ps.length < fuel) (is : List ℕ) :
    visitRoots fuel is t = visitRoots (ps.length + 1) is t := by
  induction is generalizing t with
  | nil => rfl
  | cons i is ih =>
      rw [visitRoots, visitRoots, visitRoot_fuel h hnodup hfuel]
      rcases hroot : visitRoot (ps.length + 1) t i with _ | ⟨out, t'⟩
      · rfl
      · rw [Option.bind_some, Option.bind_some, ih (visitRoot_some h hnodup hroot).1]

end Roots

/-- In a consistent snapshot only 0 has children without being a process. -/
theorem Consistent.childless {ps : List Proc} (h : Consistent ps) {i : ℕ} (hi : i ≠ 0)
    (hnot : i ∉ nodes (links ps)) : children (links ps) i = [] := by
  refine List.eq_nil_iff_forall_not_mem.mpr ?_
  intro v hv
  obtain ⟨p, hp, -, rfl⟩ := parent_links.mp (mem_children.mp hv)
  rw [nodes_links] at hnot
  exact (h.parent p hp).elim hi hnot

theorem Consistent.zero_notMem {ps : List Proc} (h : Consistent ps) : 0 ∉ ps.map Proc.pid := by
  intro hmem
  obtain ⟨p, hp, hzero⟩ := List.mem_map.mp hmem
  have hpos := (h.pid_range p hp).1
  omega

theorem Consistent.parent_lt {ps : List Proc} (h : Consistent ps) :
    ∀ p ∈ ps, p.pid < maxProcCnt ∧ p.ppid < maxProcCnt := by
  intro p hp
  refine ⟨(h.pid_range p hp).2, ?_⟩
  rcases h.parent p hp with hzero | hmem
  · rw [hzero]
    decide
  · obtain ⟨q, hq, hqp⟩ := List.mem_map.mp hmem
    exact hqp ▸ (h.pid_range q hq).2

theorem Consistent.children_zero {ps : List Proc} (h : Consistent ps) :
    children (links ps) 0 ≠ [] := by
  obtain ⟨p, hp⟩ := List.exists_mem_of_ne_nil ps h.nonempty
  intro hnil
  rcases Relation.ReflTransGen.cases_head (h.chain p hp) with hzero | ⟨v, hv, -⟩
  · exact h.zero_notMem (hzero ▸ List.mem_map_of_mem hp)
  · rw [← mem_children, hnil] at hv
    contradiction

/-- What the tables hold does not depend on the names. -/
theorem Tables.Holds.rename {t : Tables} {ps : List Proc} (h : t.Holds ps) (name : ℕ → List UInt8) :
    Tables.Holds { t with name := name } ps :=
  ⟨h.adj_eq, h.inDegree_eq, h.valid_iff⟩

theorem holds_of_collect {procs : List Entry} {t : Tables}
    (hcol : Tables.empty.collect procs = some t) : t.Holds (snapshot procs) := by
  rcases collect_eq holds_empty procs with ⟨t', hcol', hholds, -⟩ | ⟨hnone, -⟩
  · obtain rfl := Option.some.inj (hcol.symm.trans hcol')
    exact hholds
  · rw [hnone] at hcol
    contradiction

/-- The scan of a snapshot that fits the tables fills them. -/
theorem collect_of_range {procs : List Entry}
    (hrange : ∀ p ∈ snapshot procs, p.pid < maxProcCnt ∧ p.ppid < maxProcCnt) :
    ∃ t, Tables.empty.collect procs = some t ∧ t.Holds (snapshot procs) := by
  rcases collect_eq holds_empty procs with ⟨t, hcol, hholds, -⟩ | ⟨-, p, hp, hout⟩
  · exact ⟨t, hcol, hholds⟩
  · exact absurd (hrange p hp) hout

theorem collect_isSome_iff (procs : List Entry) :
    (Tables.empty.collect procs).isSome ↔
      ∀ p ∈ snapshot procs, p.pid < maxProcCnt ∧ p.ppid < maxProcCnt := by
  rcases collect_eq holds_empty procs with ⟨t, hcol, -, hrange⟩ | ⟨hcol, p, hp, hout⟩
  · exact iff_of_true (by simp [hcol]) hrange
  · exact iff_of_false (by simp [hcol]) fun hrange => hout (hrange p hp)

/-- What is below 0 in a consistent snapshot: 0 itself and every process. -/
theorem Consistent.above_zero_iff {ps : List Proc} (h : Consistent ps) (w : ℕ) :
    Above (links ps) 0 w ↔ w ∈ 0 :: ps.map Proc.pid := by
  constructor
  · intro habove
    rcases Relation.ReflTransGen.cases_tail habove with rfl | ⟨p, -, hp⟩
    · exact List.mem_cons_self
    · exact List.mem_cons_of_mem _ (nodes_links ps ▸ hp.mem)
  · intro hmem
    rcases List.mem_cons.mp hmem with rfl | hmem
    · exact .refl
    · obtain ⟨p, hp, rfl⟩ := List.mem_map.mp hmem
      exact h.chain p hp

/-- The names when the tree is printed. -/
theorem Consistent.update_name {procs : List Entry} (h : Consistent (snapshot procs)) {t : Tables}
    (hcol : Tables.empty.collect procs = some t) {w : ℕ}
    (hw : w ∈ 0 :: (snapshot procs).map Proc.pid) :
    Function.update t.name 0 unknownProc w = nameOf (snapshot procs) w := by
  rcases List.mem_cons.mp hw with rfl | hw
  · rw [Function.update_self, nameOf_of_notMem h.zero_notMem]
  · have hne : w ≠ 0 := fun heq => h.zero_notMem (heq ▸ hw)
    obtain ⟨p, hp, rfl⟩ := List.mem_map.mp hw
    rw [Function.update_of_ne hne, nameOf_of_mem h.distinct hp,
      (collect_name hcol h.distinct).1 p hp]

/-- The loop over the roots prints what the walk from 0 visits. -/
theorem Consistent.visitRoots_eq {ps : List Proc} (h : Consistent ps) {t : Tables}
    (hholds : t.Holds ps) {fuel : ℕ} {lines : List (ℕ × ℕ)}
    (hwalk : walk (links ps) fuel 0 0 = some lines) :
    visitRoots fuel (List.range 10) t =
      some (lines.map (fun v => .node v.1 (Function.update t.name 0 unknownProc v.2) v.2) ++
        [.gap]) := by
  have hzero : 0 ∉ nodes (links ps) := nodes_links ps ▸ h.zero_notMem
  have hroot : visitRoot fuel t 0 = _ := visitRoot_unlisted hholds hzero
  rw [if_neg h.children_zero, hwalk, Option.map_some] at hroot
  have hothers : ∀ i ∈ List.range' 1 9, i ∉ nodes (links ps) → children (links ps) i = [] := by
    intro i hi
    have hpos := (List.mem_range'_1.mp hi).1
    exact h.childless (by omega)
  have hrange : List.range 10 = 0 :: List.range' 1 9 := by decide
  rw [hrange, visitRoots, hroot, Option.bind_some, visitRoots_childless (hholds.rename _) hothers,
    Option.map_some, List.append_nil]

/-- A consistent snapshot is printed as one tree with root 0: every process on one line,
indented by the number of its ancestors and followed by the lines of its descendants
before any other line that is not deeper. -/
theorem tree_printed (procs : List Entry) (h : Consistent (snapshot procs)) :
    ∃ lines : List (ℕ × ℕ),
      (∀ fuel, (snapshot procs).length < fuel → buildAndPrintTree fuel procs =
        some (lines.map (fun v => .node v.1 (nameOf (snapshot procs) v.2) v.2) ++ [.gap])) ∧
      lines.head? = some (0, 0) ∧
      (lines.map Prod.snd).Perm (0 :: (snapshot procs).map Proc.pid) ∧
      (∀ v ∈ lines, v.1 = (ancestors (links (snapshot procs)) v.2).ncard) ∧
      Nested (links (snapshot procs)) lines := by
  have hnodup : (nodes (links (snapshot procs))).Nodup := nodes_links _ ▸ h.distinct
  have hzero : 0 ∉ nodes (links (snapshot procs)) := nodes_links _ ▸ h.zero_notMem
  obtain ⟨t, hcol, hholds⟩ := collect_of_range h.parent_lt
  obtain ⟨lines, hwalk⟩ := Option.isSome_iff_exists.mp (walk_root_isSome hnodup hzero 0)
  have hmem : ∀ w, w ∈ lines.map Prod.snd ↔ w ∈ 0 :: (snapshot procs).map Proc.pid := fun w =>
    (mem_walk hwalk w).trans (h.above_zero_iff w)
  refine ⟨lines, ?_, walk_head hwalk, ?_, ?_, walk_nested hwalk⟩
  · intro fuel hfuel
    have hlen : (links (snapshot procs)).length = (snapshot procs).length := List.length_map _
    have hwalk' := walk_root_fuel hnodup hzero 0 (hlen.symm ▸ hfuel)
    rw [buildAndPrintTree, hcol, Option.bind_some, h.visitRoots_eq hholds (hwalk'.trans hwalk)]
    congr 2
    refine List.map_congr_left ?_
    intro v hv
    rw [h.update_name hcol ((hmem v.2).mp (List.mem_map_of_mem hv))]
  · exact (List.perm_ext_iff_of_nodup (walk_nodup hnodup hzero .refl hwalk)
      (List.nodup_cons.mpr ⟨h.zero_notMem, h.distinct⟩)).mpr hmem
  · refine walk_depth hnodup hzero .refl ?_ hwalk
    rw [ancestors_root hzero, Set.ncard_empty]

/-- Process 20 below 7 and 7 below 0, listed with the child first; 9 vanished. -/
abbrev twoProcs : List Entry :=
  [.read ⟨20, 7, [99], by decide⟩, .gone 9, .read ⟨7, 0, [97], by decide⟩]

theorem tree_printed_two :
    ∃ lines : List (ℕ × ℕ), buildAndPrintTree 3 twoProcs =
        some (lines.map (fun v => .node v.1 (nameOf (snapshot twoProcs) v.2) v.2) ++ [.gap]) ∧
      (lines.map Prod.snd).Perm [0, 20, 7] := by
  have hseven : Parent (links (snapshot twoProcs)) 0 7 := parent_links.mpr (by decide)
  have htwenty : Parent (links (snapshot twoProcs)) 7 20 := parent_links.mpr (by decide)
  have hchain : ∀ p ∈ snapshot twoProcs, Above (links (snapshot twoProcs)) 0 p.pid := by
    refine List.forall_mem_cons.mpr ⟨?_, List.forall_mem_singleton.mpr ?_⟩
    · exact .tail (.single hseven) htwenty
    · exact .single hseven
  obtain ⟨lines, hrun, -, hperm, -⟩ := tree_printed twoProcs
    ⟨by decide, by decide, by decide, by decide, hchain⟩
  exact ⟨lines, hrun 3 (by decide), hperm⟩

/-- Every call of `printTree` returns on every snapshot that lists no pid twice: from a pid
the loop starts at, `printTree` is only called for pids on which it returns, and if the pids
fit the tables all trees are printed. -/
theorem printTree_terminates (procs : List Entry)
    (hdistinct : ((snapshot procs).map Proc.pid).Nodup) :
    (∀ t, Tables.empty.collect procs = some t → ∀ i, t.inDegree i = 0 →
      ∀ u, Relation.ReflTransGen (fun a b => b ∈ t.adj a) i u →
        ∀ name h fuel, (snapshot procs).length < fuel →
          (printTree { t with name := name } fuel u h).isSome) ∧
      ((∀ p ∈ snapshot procs, p.pid < maxProcCnt ∧ p.ppid < maxProcCnt) →
        ∃ out, ∀ fuel, (snapshot procs).length < fuel → buildAndPrintTree fuel procs = some out) := by
  have hnodup : (nodes (links (snapshot procs))).Nodup := nodes_links _ ▸ hdistinct
  refine ⟨?_, ?_⟩
  · intro t hcol i hdegree u hcalls name h fuel hfuel
    have hholds := holds_of_collect hcol
    have hroot : i ∉ nodes (links (snapshot procs)) := by
      rw [hholds.inDegree_eq] at hdegree
      exact List.count_eq_zero.mp hdegree
    have habove : Above (links (snapshot procs)) i u := by
      refine Relation.ReflTransGen.mono ?_ _ _ hcalls
      intro a b hb
      rwa [hholds.adj_eq, mem_children] at hb
    have hlen : (links (snapshot procs)).length = (snapshot procs).length := List.length_map _
    have hbelow : (below (links (snapshot procs)) u).ncard ≤ _ := ncard_below_le u
    rw [printTree_eq (hholds.rename name), Option.isSome_map]
    exact walk_isSome hnodup hroot habove (by omega)
  · intro hrange
    obtain ⟨t, hcol, hholds⟩ := collect_of_range hrange
    obtain ⟨out, hout⟩ := Option.isSome_iff_exists.mp
      (visitRoots_isSome hholds hnodup (List.range 10))
    refine ⟨out, fun fuel hfuel => ?_⟩
    rw [buildAndPrintTree, hcol, Option.bind_some, visitRoots_fuel hholds hnodup hfuel, hout]

/-- Processes 5 and 6 are each other's parent; the call for 0 above 8 returns all the same. -/
theorem printTree_terminates_cycle :
    ∃ out, ∀ fuel, 3 < fuel → buildAndPrintTree fuel [.read ⟨5, 6, [97], by decide⟩,
      .read ⟨6, 5, [98], by decide⟩, .read ⟨8, 0, [99], by decide⟩] = some out :=
  (printTree_terminates [.read ⟨5, 6, [97], by decide⟩, .read ⟨6, 5, [98], by decide⟩,
    .read ⟨8, 0, [99], by decide⟩] (by decide)).2 (by decide)

end TlpiExercises.ProcessTree
