import TlpiExercises.ParentForest

/-!
# Printing the process tree

The scan of `/proc` fills four tables indexed by pid from the processes whose status
could be read; those that are gone by then are skipped. A tree is then printed from
every pid below 10 that has no parent. A pid or parent pid outside the tables is an
access out of range, and the recursion of `printTree` is bounded by fuel.

The scan starts with the pids that `readDirContent` has found. That call is modelled by itself: it
leaves its blocks for a name of more than three digits, which says nothing about the tables.
-/
namespace TlpiExercises.ProcessTree
open ParentForest

/-- `MAX_PROC_CNT`. -/
abbrev maxProcCnt : ℕ := 40000

/-- What is read for one process; its name fits an entry of `name`. -/
structure Proc where
  pid : ℕ
  ppid : ℕ
  name : List UInt8
  name_lt : name.length < 100

/-- A pid found in `/proc`: `readProcInfo` fails, or the status is read. -/
inductive Entry where
  | gone (pid : ℕ)
  | read (p : Proc)

/-- The tables `adj`, `inDegree`, `valid` and `name`. -/
structure Tables where
  adj : ℕ → List ℕ
  inDegree : ℕ → ℕ
  valid : ℕ → Bool
  name : ℕ → List UInt8

def Tables.empty : Tables where
  adj _ := []
  inDegree _ := 0
  valid _ := false
  name _ := []

/-- The body of the scan for a process that is still there. -/
def Tables.record (t : Tables) (p : Proc) : Option Tables :=
  if p.pid < maxProcCnt ∧ p.ppid < maxProcCnt then
    some
      { name := Function.update t.name p.pid p.name
        adj := Function.update t.adj p.ppid (t.adj p.ppid ++ [p.pid])
        inDegree := Function.update t.inDegree p.pid (t.inDegree p.pid + 1)
        valid := Function.update t.valid p.pid true }
  else none

def Tables.collect (t : Tables) : List Entry → Option Tables
  | [] => some t
  | .gone _ :: es => t.collect es
  | .read p :: es => (t.record p).bind fun t => t.collect es

/-- What is printed: a line `+-- name [pid]` indented by `h`, or the blank lines after
a tree. -/
inductive Item where
  | node (h : ℕ) (name : List UInt8) (pid : ℕ)
  | gap
  deriving DecidableEq, Repr

def printTree (t : Tables) : ℕ → ℕ → ℕ → Option (List Item)
  | 0, _, _ => none
  | fuel + 1, u, h =>
      ((t.adj u).mapM fun v => printTree t fuel v (h + 1)).map fun subtrees =>
        .node h (t.name u) u :: subtrees.flatten

/-- `"unknownProc"`. -/
abbrev unknownProc : List UInt8 := [117, 110, 107, 110, 111, 119, 110, 80, 114, 111, 99]

/-- The body of the loop over the possible roots. -/
def visitRoot (fuel : ℕ) (t : Tables) (i : ℕ) : Option (List Item × Tables) :=
  if t.valid i = true ∧ t.inDegree i = 0 then
    (printTree t fuel i 0).map fun out => (out ++ [.gap], t)
  else if t.valid i = false ∧ t.inDegree i = 0 ∧ 0 < (t.adj i).length then
    let t := { t with name := Function.update t.name i unknownProc }
    (printTree t fuel i 0).map fun out => (out ++ [.gap], t)
  else some ([], t)

def visitRoots (fuel : ℕ) : List ℕ → Tables → Option (List Item)
  | [], _ => some []
  | i :: is, t =>
      (visitRoot fuel t i).bind fun r => (visitRoots fuel is r.2).map fun rest => r.1 ++ rest

/-- The function behind its call of `readDirContent`. -/
def buildAndPrintTree (fuel : ℕ) (procs : List Entry) : Option (List Item) :=
  (Tables.empty.collect procs).bind (visitRoots fuel (List.range 10))

/-- The processes whose status was read. -/
def snapshot (procs : List Entry) : List Proc :=
  procs.filterMap fun
    | .gone _ => none
    | .read p => some p

/-- The pids of the lines printed, in order. -/
def printedPids (out : List Item) : List ℕ :=
  out.filterMap fun
    | .node _ _ pid => some pid
    | .gap => none

/-- The parent links of a snapshot. -/
def links (ps : List Proc) : List (ℕ × ℕ) := ps.map fun p => (p.pid, p.ppid)

theorem nodes_links (ps : List Proc) : nodes (links ps) = ps.map Proc.pid := by
  simp [nodes, links]

theorem parent_links {ps : List Proc} {u v : ℕ} :
    Parent (links ps) u v ↔ ∃ p ∈ ps, p.pid = v ∧ p.ppid = u := by
  simp [Parent, links]

/-- The tables hold the processes `ps`. -/
structure Tables.Holds (t : Tables) (ps : List Proc) : Prop where
  adj_eq : ∀ u, t.adj u = children (links ps) u
  inDegree_eq : ∀ u, t.inDegree u = (nodes (links ps)).count u
  valid_iff : ∀ u, t.valid u = true ↔ u ∈ nodes (links ps)

theorem holds_empty : Tables.empty.Holds [] := by
  constructor <;> simp [Tables.empty, children, links, nodes]

theorem Tables.Holds.record {t t' : Tables} {ps : List Proc} {p : Proc} (h : t.Holds ps)
    (hrec : t.record p = some t') : t'.Holds (ps ++ [p]) := by
  simp only [Tables.record, Option.ite_none_right_eq_some, Option.some.injEq] at hrec
  obtain ⟨-, rfl⟩ := hrec
  refine ⟨?_, ?_, ?_⟩
  · intro u
    by_cases hu : u = p.ppid
    · subst hu
      simp [h.adj_eq, children, links]
    · simp [hu, h.adj_eq, children, links, Ne.symm hu]
  · intro u
    by_cases hu : u = p.pid
    · subst hu
      simp [h.inDegree_eq, nodes, links]
    · simp [hu, h.inDegree_eq, nodes, links, List.count_append, Ne.symm hu]
  · intro u
    by_cases hu : u = p.pid
    · subst hu
      simp [nodes, links]
    · simp [hu, h.valid_iff, nodes, links]

/-- The scan fills the tables, unless a pid does not fit. -/
theorem collect_eq {t : Tables} {ps : List Proc} (h : t.Holds ps) (procs : List Entry) :
    (∃ t', t.collect procs = some t' ∧ t'.Holds (ps ++ snapshot procs) ∧
        ∀ p ∈ snapshot procs, p.pid < maxProcCnt ∧ p.ppid < maxProcCnt) ∨
      (t.collect procs = none ∧ ∃ p ∈ snapshot procs, ¬ (p.pid < maxProcCnt ∧ p.ppid < maxProcCnt)) := by
  induction procs generalizing t ps with
  | nil => exact .inl ⟨t, rfl, by simpa [snapshot] using h, by simp [snapshot]⟩
  | cons e es ih =>
      cases e with
      | gone pid => exact ih h
      | read p =>
          have hsnap : snapshot (.read p :: es) = p :: snapshot es := rfl
          rw [hsnap]
          by_cases hp : p.pid < maxProcCnt ∧ p.ppid < maxProcCnt
          · obtain ⟨t₁, ht₁⟩ : ∃ t₁, t.record p = some t₁ := ⟨_, if_pos hp⟩
            rcases ih (h.record ht₁) with ⟨t', hcol, hholds, hlt⟩ | ⟨hcol, q, hq, hlt⟩
            · refine .inl ⟨t', ?_, ?_, ?_⟩
              · simpa [Tables.collect, ht₁] using hcol
              · simpa using hholds
              · simpa [hp] using hlt
            · exact .inr ⟨by simpa [Tables.collect, ht₁] using hcol, q, by simp [hq], hlt⟩
          · refine .inr ⟨?_, p, by simp, hp⟩
            have hrec : t.record p = none := if_neg hp
            simp [Tables.collect, hrec]

/-- `printTree` walks the parent links and prints a line at every node. -/
theorem printTree_eq {t : Tables} {ps : List Proc} (h : t.Holds ps) (fuel u d : ℕ) :
    printTree t fuel u d =
      (walk (links ps) fuel u d).map (List.map fun v => .node v.1 (t.name v.2) v.2) := by
  induction fuel generalizing u d with
  | zero => rfl
  | succ fuel ih =>
      simp only [printTree, walk, h.adj_eq, ih, mapM_map_map, Option.map_map]
      congr 1
      funext subtrees
      simp [List.map_flatten]

theorem printedPids_append (out out' : List Item) :
    printedPids (out ++ out') = printedPids out ++ printedPids out' :=
  List.filterMap_append

theorem printedPids_walk (name : ℕ → List UInt8) (out : List (ℕ × ℕ)) :
    printedPids (out.map fun v => .node v.1 (name v.2) v.2) = out.map Prod.snd := by
  simp [printedPids, List.filterMap_map]

section Roots

variable {t t' : Tables} {ps : List Proc} {fuel i : ℕ} {out : List Item}

/-- A process of the snapshot has a parent, so no tree starts at it. -/
theorem visitRoot_listed (h : t.Holds ps) (hi : i ∈ nodes (links ps)) :
    visitRoot fuel t i = some ([], t) := by
  have hvalid : t.valid i = true := (h.valid_iff i).mpr hi
  have hdegree : t.inDegree i ≠ 0 := by
    rw [h.inDegree_eq]
    exact (List.count_pos_iff.mpr hi).ne'
  rw [visitRoot, if_neg (by simp [hdegree]), if_neg (by simp [hvalid])]

/-- Any other pid below 10 is a root if some process has it as its parent. -/
theorem visitRoot_unlisted (h : t.Holds ps) (hi : i ∉ nodes (links ps)) :
    visitRoot fuel t i =
      if children (links ps) i = [] then some ([], t)
      else (walk (links ps) fuel i 0).map fun w =>
        (w.map (fun v => .node v.1 (Function.update t.name i unknownProc v.2) v.2) ++ [.gap],
          { t with name := Function.update t.name i unknownProc }) := by
  have hvalid : t.valid i = false := by
    rw [← Bool.not_eq_true]
    exact fun hv => hi ((h.valid_iff i).mp hv)
  have hdegree : t.inDegree i = 0 := by
    rw [h.inDegree_eq]
    exact List.count_eq_zero.mpr hi
  have hholds : Tables.Holds { t with name := Function.update t.name i unknownProc } ps :=
    ⟨h.adj_eq, h.inDegree_eq, h.valid_iff⟩
  rw [visitRoot, if_neg (by simp [hvalid])]
  simp only [printTree_eq hholds, h.adj_eq, hvalid, hdegree, List.length_pos_iff, true_and,
    ne_eq, ite_not, Option.map_map]
  rfl

/-- What the loop prints for `i`: everything below it, once, if no process is `i`. -/
theorem visitRoot_some (h : t.Holds ps) (hnodup : (nodes (links ps)).Nodup)
    (hrun : visitRoot fuel t i = some (out, t')) :
    t'.Holds ps ∧ (printedPids out).Nodup ∧
      (∀ w ∈ printedPids out, i ∉ nodes (links ps) ∧ Above (links ps) i w) ∧
      ∀ w ∈ nodes (links ps), i ∉ nodes (links ps) → Above (links ps) i w → w ∈ printedPids out := by
  by_cases hi : i ∈ nodes (links ps)
  · rw [visitRoot_listed h hi, Option.some.injEq, Prod.mk.injEq] at hrun
    obtain ⟨rfl, rfl⟩ := hrun
    exact ⟨h, by simp [printedPids], by simp [printedPids], fun w _ hni => absurd hi hni⟩
  · rw [visitRoot_unlisted h hi] at hrun
    split_ifs at hrun with hchildren
    · obtain ⟨rfl, rfl⟩ := Prod.mk.inj (Option.some.inj hrun)
      refine ⟨h, by simp [printedPids], by simp [printedPids], ?_⟩
      intro w hw _ habove
      rcases Relation.ReflTransGen.cases_head habove with rfl | ⟨v, hv, -⟩
      · exact absurd hw hi
      · rw [← mem_children, hchildren] at hv
        contradiction
    · obtain ⟨visited, hwalk, hout⟩ := Option.map_eq_some_iff.mp hrun
      obtain ⟨rfl, rfl⟩ := Prod.mk.inj hout
      have hpids : printedPids (visited.map (fun v => .node v.1
          (Function.update t.name i unknownProc v.2) v.2) ++ [.gap]) = visited.map Prod.snd := by
        rw [printedPids_append, printedPids_walk]
        exact List.append_nil _
      rw [hpids]
      refine ⟨⟨h.adj_eq, h.inDegree_eq, h.valid_iff⟩, walk_nodup hnodup hi .refl hwalk, ?_, ?_⟩
      · intro w hw
        exact ⟨hi, (mem_walk hwalk w).mp hw⟩
      · intro w _ _ habove
        exact (mem_walk hwalk w).mpr habove

theorem visitRoot_isSome (h : t.Holds ps) (hnodup : (nodes (links ps)).Nodup) :
    (visitRoot (ps.length + 1) t i).isSome := by
  by_cases hi : i ∈ nodes (links ps)
  · rw [visitRoot_listed h hi]
    rfl
  · have hwalk := walk_root_isSome hnodup hi 0
    rw [links, List.length_map, ← links] at hwalk
    rw [visitRoot_unlisted h hi]
    split_ifs
    · rfl
    · rwa [Option.isSome_map]

/-- The lines of all trees: no pid twice, and every process that is below a root. -/
theorem visitRoots_some (h : t.Holds ps) (hnodup : (nodes (links ps)).Nodup) {is : List ℕ}
    (his : is.Nodup) (hrun : visitRoots fuel is t = some out) :
    (printedPids out).Nodup ∧
      (∀ w ∈ printedPids out, ∃ i ∈ is, i ∉ nodes (links ps) ∧ Above (links ps) i w) ∧
      ∀ w ∈ nodes (links ps), ∀ i ∈ is, i ∉ nodes (links ps) → Above (links ps) i w →
        w ∈ printedPids out := by
  induction is generalizing t out with
  | nil =>
      obtain rfl : [] = out := by simpa [visitRoots] using hrun
      simp [printedPids]
  | cons i is ih =>
      obtain ⟨⟨first, t'⟩, hfirst, hrest⟩ := Option.bind_eq_some_iff.mp hrun
      obtain ⟨rest, hrest', rfl⟩ := Option.map_eq_some_iff.mp hrest
      obtain ⟨hi, his⟩ := List.nodup_cons.mp his
      obtain ⟨h', hnd, hbelow, hall⟩ := visitRoot_some h hnodup hfirst
      obtain ⟨hnd', hbelow', hall'⟩ := ih h' his hrest'
      rw [printedPids_append]
      refine ⟨?_, ?_, ?_⟩
      · rw [List.nodup_append']
        refine ⟨hnd, hnd', ?_⟩
        intro w hw hw'
        obtain ⟨hroot, habove⟩ := hbelow w hw
        obtain ⟨j, hj, hroot', habove'⟩ := hbelow' w hw'
        -- two roots above the same node are one
        rcases above_total hnodup habove habove' with hij | hji
        · exact hi (eq_of_above_root hroot' hij ▸ hj)
        · exact hi (eq_of_above_root hroot hji ▸ hj)
      · intro w hw
        rcases List.mem_append.mp hw with hw | hw
        · exact ⟨i, by simp, hbelow w hw⟩
        · obtain ⟨j, hj, hroot⟩ := hbelow' w hw
          exact ⟨j, by simp [hj], hroot⟩
      · intro w hw j hj hroot habove
        rcases List.mem_cons.mp hj with rfl | hj
        · exact List.mem_append_left _ (hall w hw hroot habove)
        · exact List.mem_append_right _ (hall' w hw j hj hroot habove)

theorem visitRoots_isSome (h : t.Holds ps) (hnodup : (nodes (links ps)).Nodup) (is : List ℕ) :
    (visitRoots (ps.length + 1) is t).isSome := by
  induction is generalizing t with
  | nil => rfl
  | cons i is ih =>
      obtain ⟨⟨first, t'⟩, hfirst⟩ := Option.isSome_iff_exists.mp (visitRoot_isSome h hnodup (i := i))
      rw [visitRoots, hfirst, Option.bind_some, Option.isSome_map]
      exact ih (visitRoot_some h hnodup hfirst).1

end Roots

/-- Some process is its own ancestor. -/
def Cyclic (ps : List Proc) : Prop := ∃ u, Relation.TransGen (Parent (links ps)) u u

/-- Every process is below a pid under 10 that is not a process of the snapshot exactly
if there is no cycle and only such pids are missing as parents. -/
theorem all_rooted_iff {ps : List Proc} (hnodup : (nodes (links ps)).Nodup) :
    (∀ p ∈ ps, ∃ i < 10, i ∉ nodes (links ps) ∧ Above (links ps) i p.pid) ↔
      (∀ p ∈ ps, 10 ≤ p.ppid → ∃ q ∈ ps, q.pid = p.ppid) ∧ ¬ Cyclic ps := by
  have hmem : ∀ u, u ∈ nodes (links ps) ↔ ∃ q ∈ ps, q.pid = u := by
    intro u
    rw [nodes_links, List.mem_map]
  have hparent : ∀ p ∈ ps, Parent (links ps) p.ppid p.pid :=
    fun p hp => parent_links.mpr ⟨p, hp, rfl, rfl⟩
  constructor
  · intro hall
    refine ⟨?_, ?_⟩
    · intro p hp hge
      rw [← hmem]
      by_contra hmissing
      obtain ⟨i, hlt, hroot, habove⟩ := hall p hp
      rcases Relation.ReflTransGen.cases_tail habove with heq | ⟨q, hiq, hq⟩
      · exact hroot (heq ▸ (hparent p hp).mem)
      · rw [hq.unique hnodup (hparent p hp)] at hiq
        rw [eq_of_above_root hmissing hiq] at hlt
        omega
    · rintro ⟨u, hcycle⟩
      obtain ⟨q, huq, hq⟩ := Relation.TransGen.tail'_iff.mp hcycle
      obtain ⟨p, hp, hpid, -⟩ := parent_links.mp hq
      obtain ⟨i, -, hroot, habove⟩ := hall p hp
      rw [hpid] at habove
      exact not_above_parent hnodup hroot habove hq huq
  · rintro ⟨hparents, hacyclic⟩ p hp
    obtain ⟨r, hr, habove⟩ := exists_root (fun u hu => hacyclic ⟨u, hu⟩) (hparent p hp).mem
    refine ⟨r, ?_, hr, habove⟩
    by_contra hge
    rcases Relation.ReflTransGen.cases_head habove with heq | ⟨v, hv, -⟩
    · exact hr (heq ▸ (hparent p hp).mem)
    · obtain ⟨q, hq, -, rfl⟩ := parent_links.mp hv
      exact hr ((hmem _).mpr (hparents q hq (by omega)))

/-- Every process whose status was read is printed exactly once if and only if every
missing parent has a pid below 10 and no process is its own ancestor. -/
theorem every_process_printed_iff (procs : List Entry)
    (hdistinct : ((snapshot procs).map Proc.pid).Nodup)
    (hpids : ∀ p ∈ snapshot procs, p.pid < maxProcCnt) :
    (∃ fuel out, buildAndPrintTree fuel procs = some out ∧
        ∀ p ∈ snapshot procs, (printedPids out).count p.pid = 1) ↔
      (∀ p ∈ snapshot procs, 10 ≤ p.ppid → ∃ q ∈ snapshot procs, q.pid = p.ppid) ∧
        ¬ Cyclic (snapshot procs) := by
  have hnodup : (nodes (links (snapshot procs))).Nodup := by rwa [nodes_links]
  have hpid : ∀ p ∈ snapshot procs, p.pid ∈ nodes (links (snapshot procs)) := by
    intro p hp
    rw [nodes_links]
    exact List.mem_map_of_mem hp
  rcases collect_eq holds_empty procs with ⟨t, hcol, hholds, -⟩ | ⟨hcol, p, hp, hrange⟩
  · rw [List.nil_append] at hholds
    rw [← all_rooted_iff hnodup]
    constructor
    · rintro ⟨fuel, out, hrun, hcount⟩ p hp
      rw [buildAndPrintTree, hcol, Option.bind_some] at hrun
      obtain ⟨-, hbelow, -⟩ := visitRoots_some hholds hnodup List.nodup_range hrun
      have hprinted : p.pid ∈ printedPids out := List.count_pos_iff.mp (by rw [hcount p hp]; omega)
      obtain ⟨i, hi, hroot⟩ := hbelow p.pid hprinted
      exact ⟨i, List.mem_range.mp hi, hroot⟩
    · intro hall
      obtain ⟨out, hout⟩ := Option.isSome_iff_exists.mp
        (visitRoots_isSome hholds hnodup (List.range 10))
      refine ⟨_, out, by rw [buildAndPrintTree, hcol, Option.bind_some, hout], ?_⟩
      obtain ⟨hnd, -, hprinted⟩ := visitRoots_some hholds hnodup List.nodup_range hout
      intro p hp
      obtain ⟨i, hi, hroot, habove⟩ := hall p hp
      refine List.count_eq_one_of_mem hnd ?_
      exact hprinted p.pid (hpid p hp) i (List.mem_range.mpr hi) hroot habove
  · -- a parent pid outside the tables is missing and not below 10
    constructor
    · rintro ⟨fuel, out, hrun, -⟩
      rw [buildAndPrintTree, hcol] at hrun
      contradiction
    · rintro ⟨hparents, -⟩
      have hlarge : maxProcCnt ≤ p.ppid := by
        by_contra hlt
        exact hrange ⟨hpids p hp, by omega⟩
      obtain ⟨q, hq, hqp⟩ := hparents p hp (by simp only [maxProcCnt] at hlarge; omega)
      have hlt := hpids q hq
      omega

/-- Processes 1 and 2 with parent 0, and 300 with parent 1; 400 vanished. -/
theorem every_process_printed_three :
    ¬ Cyclic [⟨1, 0, [105], by decide⟩, ⟨300, 1, [115], by decide⟩, ⟨2, 0, [107], by decide⟩] :=
  ((every_process_printed_iff [.read ⟨1, 0, [105], by decide⟩, .read ⟨300, 1, [115], by decide⟩,
    .gone 400, .read ⟨2, 0, [107], by decide⟩] (by decide) (by decide)).mp
    ⟨4, _, rfl, by decide⟩).2

/-- The parent 400 of process 500 vanished during the scan: 500 is not printed. -/
theorem orphan_not_printed :
    ¬ ∃ fuel out, buildAndPrintTree fuel [.gone 400, .read ⟨500, 400, [115], by decide⟩] = some out ∧
      ∀ p ∈ snapshot [.gone 400, .read ⟨500, 400, [115], by decide⟩],
        (printedPids out).count p.pid = 1 := by
  rintro ⟨fuel, out, hrun, hcount⟩
  obtain rfl : [] = out := Option.some.inj hrun
  exact absurd (hcount ⟨500, 400, [115], by decide⟩ (by simp [snapshot])) (by decide)

end TlpiExercises.ProcessTree
