import Mathlib.Data.List.Basic
import Mathlib.Data.List.Infix
import Mathlib.Tactic

/-!
# Directory trees and path names

A directory has an identity, which no other directory ever gets, and a path: the
list of names that leads to it from the top of the tree. Creating, removing and
renaming directories keep the tree well formed; a rename moves a whole subtree. A
path name is the text of such a list, with the names separated by slashes.
-/
namespace TlpiExercises

/-- A directory of the tree. -/
structure Dir (ν : Type*) where
  ino : ℕ
  path : List ν
  deriving DecidableEq

/-- The directories under a top directory, with distinct identities and paths. -/
structure DirTree (ν : Type*) where
  dirs : List (Dir ν)
  nextIno : ℕ
  ino_lt : ∀ d ∈ dirs, d.ino < nextIno
  ino_inj : ∀ d ∈ dirs, ∀ e ∈ dirs, d.ino = e.ino → d = e
  path_inj : ∀ d ∈ dirs, ∀ e ∈ dirs, d.path = e.path → d = e
  top_mem : ∃ d ∈ dirs, d.path = []
  parent_mem : ∀ d ∈ dirs, ∀ p n, d.path = p ++ [n] → ∃ e ∈ dirs, e.path = p

namespace DirTree

variable {ν : Type*}

/-- The tree that consists of its top directory. -/
def single (ν : Type*) : DirTree ν where
  dirs := [⟨0, []⟩]
  nextIno := 1
  ino_lt := by simp
  ino_inj := by simp
  path_inj := by simp
  top_mem := by simp
  parent_mem := by simp

/-- Some directory has this path. -/
def Exists (t : DirTree ν) (p : List ν) : Prop := ∃ d ∈ t.dirs, d.path = p

variable [DecidableEq ν]

instance (t : DirTree ν) (p : List ν) : Decidable (t.Exists p) :=
  inferInstanceAs (Decidable (∃ d ∈ t.dirs, d.path = p))

/-- The directory with this path. -/
def find (t : DirTree ν) (p : List ν) : Option (Dir ν) := t.dirs.find? fun d => d.path = p

theorem find_eq_some {t : DirTree ν} {p : List ν} {d : Dir ν} :
    t.find p = some d ↔ d ∈ t.dirs ∧ d.path = p := by
  constructor
  · intro h
    exact ⟨List.mem_of_find?_eq_some h, by simpa using List.find?_some h⟩
  · rintro ⟨hmem, hpath⟩
    cases hfind : t.find p with
    | none => exact absurd hpath (by simpa using List.find?_eq_none.mp hfind d hmem)
    | some e =>
        have he : e.path = p := by simpa using List.find?_some hfind
        rw [t.path_inj e (List.mem_of_find?_eq_some hfind) d hmem (he.trans hpath.symm)]

theorem find_isSome {t : DirTree ν} {p : List ν} : (t.find p).isSome ↔ t.Exists p := by
  rw [Option.isSome_iff_exists]
  simp only [find_eq_some, Exists]

/-- `mkdir`: a new directory `n` in `p`. -/
def mkdir (t : DirTree ν) (p : List ν) (n : ν) : Option (DirTree ν) :=
  if h : t.Exists p ∧ ¬ t.Exists (p ++ [n]) then
    some
      { dirs := t.dirs ++ [⟨t.nextIno, p ++ [n]⟩]
        nextIno := t.nextIno + 1
        ino_lt := by
          intro d hd
          rcases List.mem_append.mp hd with hd | hd
          · exact (t.ino_lt d hd).trans (Nat.lt_succ_self _)
          · rw [List.mem_singleton.mp hd]
            exact Nat.lt_succ_self _
        ino_inj := by
          intro d hd e he heq
          rcases List.mem_append.mp hd with hd | hd <;> rcases List.mem_append.mp he with he | he
          · exact t.ino_inj d hd e he heq
          · have hlt := t.ino_lt d hd
            rw [heq, List.mem_singleton.mp he] at hlt
            exact absurd hlt (lt_irrefl _)
          · have hlt := t.ino_lt e he
            rw [← heq, List.mem_singleton.mp hd] at hlt
            exact absurd hlt (lt_irrefl _)
          · rw [List.mem_singleton.mp hd, List.mem_singleton.mp he]
        path_inj := by
          intro d hd e he heq
          rcases List.mem_append.mp hd with hd | hd <;> rcases List.mem_append.mp he with he | he
          · exact t.path_inj d hd e he heq
          · rw [List.mem_singleton.mp he] at heq
            exact absurd ⟨d, hd, heq⟩ h.2
          · rw [List.mem_singleton.mp hd] at heq
            exact absurd ⟨e, he, heq.symm⟩ h.2
          · rw [List.mem_singleton.mp hd, List.mem_singleton.mp he]
        top_mem := by
          obtain ⟨d, hd, hpath⟩ := t.top_mem
          exact ⟨d, List.mem_append_left _ hd, hpath⟩
        parent_mem := by
          intro d hd q m hq
          rcases List.mem_append.mp hd with hd | hd
          · obtain ⟨e, he, hpath⟩ := t.parent_mem d hd q m hq
            exact ⟨e, List.mem_append_left _ he, hpath⟩
          · rw [List.mem_singleton.mp hd] at hq
            obtain ⟨rfl, -⟩ := List.append_inj' hq rfl
            obtain ⟨e, he, hpath⟩ := h.1
            exact ⟨e, List.mem_append_left _ he, hpath⟩ }
  else none

/-- `rmdir`: the directory `p` must exist, must not be the top and must be empty. -/
def rmdir (t : DirTree ν) (p : List ν) : Option (DirTree ν) :=
  if h : p ≠ [] ∧ t.Exists p ∧ ∀ d ∈ t.dirs, p <+: d.path → d.path = p then
    some
      { dirs := t.dirs.filter fun d => d.path ≠ p
        nextIno := t.nextIno
        ino_lt := fun d hd => t.ino_lt d (List.mem_of_mem_filter hd)
        ino_inj := fun d hd e he =>
          t.ino_inj d (List.mem_of_mem_filter hd) e (List.mem_of_mem_filter he)
        path_inj := fun d hd e he =>
          t.path_inj d (List.mem_of_mem_filter hd) e (List.mem_of_mem_filter he)
        top_mem := by
          obtain ⟨d, hd, hpath⟩ := t.top_mem
          exact ⟨d, by simp [hd, hpath, h.1.symm], hpath⟩
        parent_mem := by
          intro d hd q m hq
          rw [List.mem_filter] at hd
          obtain ⟨e, he, hpath⟩ := t.parent_mem d hd.1 q m hq
          refine ⟨e, ?_, hpath⟩
          rw [List.mem_filter, hpath]
          refine ⟨he, ?_⟩
          -- a removed parent would not have been empty
          rw [decide_eq_true_eq]
          rintro rfl
          have hsame := h.2.2 d hd.1 ⟨[m], hq.symm⟩
          rw [hsame] at hq
          simp at hq }
  else none

/-- Where a path under `src` is after `src` has become `dst`. -/
def move (src dst p : List ν) : List ν := if src <+: p then dst ++ p.drop src.length else p

theorem move_append (src dst p : List ν) : move src dst (src ++ p) = dst ++ p := by
  simp [move]

theorem move_of_not {src p : List ν} (h : ¬ src <+: p) (dst : List ν) : move src dst p = p :=
  if_neg h

/-- What `rename` asks of its arguments: `src` is a directory other than the top,
`dst` is a name in an existing directory that is not at or under `src`, and a
directory already there is empty. -/
def Renamable (t : DirTree ν) (src dst : List ν) : Prop :=
  src ≠ [] ∧ t.Exists src ∧ ¬ src <+: dst ∧ dst ≠ [] ∧ t.Exists dst.dropLast ∧
    ∀ d ∈ t.dirs, dst <+: d.path → d.path = dst

instance (t : DirTree ν) (src dst : List ν) : Decidable (t.Renamable src dst) :=
  inferInstanceAs (Decidable (_ ∧ _))

/-- The directories after a rename. An empty directory at `dst` is replaced. -/
def renamed (t : DirTree ν) (src dst : List ν) : List (Dir ν) :=
  (t.dirs.filter fun d => d.path ≠ dst).map fun d => ⟨d.ino, move src dst d.path⟩

theorem mem_renamed {t : DirTree ν} {src dst : List ν} {e : Dir ν} :
    e ∈ t.renamed src dst ↔
      ∃ d ∈ t.dirs, d.path ≠ dst ∧ e = ⟨d.ino, move src dst d.path⟩ := by
  simp only [renamed, List.mem_map, List.mem_filter, decide_eq_true_eq, and_assoc]
  constructor
  · rintro ⟨d, hd, hne, rfl⟩
    exact ⟨d, hd, hne, rfl⟩
  · rintro ⟨d, hd, hne, rfl⟩
    exact ⟨d, hd, hne, rfl⟩

/-- A rename keeps different paths different. -/
theorem Renamable.move_inj {t : DirTree ν} {src dst : List ν} (h : t.Renamable src dst)
    {d e : Dir ν} (hd : d ∈ t.dirs) (he : e ∈ t.dirs) (hdd : d.path ≠ dst) (hed : e.path ≠ dst)
    (heq : move src dst d.path = move src dst e.path) : d.path = e.path := by
  obtain ⟨-, -, -, -, -, hempty⟩ := h
  by_cases hds : src <+: d.path <;> by_cases hes : src <+: e.path
  · obtain ⟨p, hp⟩ := hds
    obtain ⟨q, hq⟩ := hes
    rw [← hp, ← hq, move_append, move_append] at heq
    rw [← hp, ← hq, List.append_cancel_left heq]
  · obtain ⟨p, hp⟩ := hds
    rw [← hp, move_append, move_of_not hes] at heq
    exact absurd (hempty e he ⟨p, heq⟩) hed
  · obtain ⟨q, hq⟩ := hes
    rw [← hq, move_append, move_of_not hds] at heq
    exact absurd (hempty d hd ⟨q, heq.symm⟩) hdd
  · rwa [move_of_not hds, move_of_not hes] at heq

/-- After a rename the parent of every directory is still there. -/
theorem Renamable.parent_mem {t : DirTree ν} {src dst : List ν} (h : t.Renamable src dst)
    {d : Dir ν} (hd : d ∈ t.dirs) (hdd : d.path ≠ dst) {p : List ν} {n : ν}
    (hp : move src dst d.path = p ++ [n]) : ∃ e ∈ t.renamed src dst, e.path = p := by
  obtain ⟨hsrc, -, hout, hdst, ⟨up, hup, huppath⟩, hempty⟩ := h
  have hkeep : ∀ e ∈ t.dirs, e.path ≠ dst →
      ∃ e' ∈ t.renamed src dst, e'.path = move src dst e.path :=
    fun e he hne => ⟨_, mem_renamed.mpr ⟨e, he, hne, rfl⟩, rfl⟩
  by_cases hds : src <+: d.path
  · obtain ⟨q, hq⟩ := hds
    rw [← hq, move_append] at hp
    rcases List.eq_nil_or_concat q with rfl | ⟨q, m, rfl⟩
    · -- the moved directory itself: its new parent was there before
      rw [List.append_nil] at hp
      have hup' : up.path = p := by rw [huppath, hp, List.dropLast_concat]
      have hnot : ¬ src <+: up.path := fun hs => hout (by
        rw [hp, ← hup']
        exact hs.trans (List.prefix_append _ _))
      obtain ⟨e, he, hepath⟩ := hkeep up hup (by
        rw [hup', hp]
        simp)
      rw [move_of_not hnot, hup'] at hepath
      exact ⟨e, he, hepath⟩
    · -- a directory below it: its parent moved along
      rw [List.concat_eq_append, ← List.append_assoc] at hp
      obtain ⟨hp, -⟩ := List.append_inj' hp rfl
      obtain ⟨e, he, hepath⟩ := t.parent_mem d hd (src ++ q) m (by
        rw [← hq, List.concat_eq_append, List.append_assoc])
      obtain ⟨e', he', hepath'⟩ := hkeep e he (by
        rw [hepath]
        rintro rfl
        exact hout (List.prefix_append _ _))
      rw [hepath, move_append, hp] at hepath'
      exact ⟨e', he', hepath'⟩
  · rw [move_of_not hds] at hp
    obtain ⟨e, he, hepath⟩ := t.parent_mem d hd p n hp
    obtain ⟨e', he', hepath'⟩ := hkeep e he (by
      rw [hepath]
      rintro rfl
      exact hdd (hempty d hd ⟨[n], hp.symm⟩))
    have hnot : ¬ src <+: e.path := fun hs => hds (by
      rw [hp, ← hepath]
      exact hs.trans (List.prefix_append _ _))
    rw [move_of_not hnot, hepath] at hepath'
    exact ⟨e', he', hepath'⟩

/-- `rename`: `src` and everything under it move to `dst`. -/
def rename (t : DirTree ν) (src dst : List ν) : Option (DirTree ν) :=
  if h : t.Renamable src dst then
    some
      { dirs := t.renamed src dst
        nextIno := t.nextIno
        ino_lt := by
          intro e he
          obtain ⟨d, hd, -, rfl⟩ := mem_renamed.mp he
          exact t.ino_lt d hd
        ino_inj := by
          intro e he e' he' heq
          obtain ⟨d, hd, -, rfl⟩ := mem_renamed.mp he
          obtain ⟨d', hd', -, rfl⟩ := mem_renamed.mp he'
          rw [t.ino_inj d hd d' hd' heq]
        path_inj := by
          intro e he e' he' heq
          obtain ⟨d, hd, hne, rfl⟩ := mem_renamed.mp he
          obtain ⟨d', hd', hne', rfl⟩ := mem_renamed.mp he'
          rw [t.path_inj d hd d' hd' (h.move_inj hd hd' hne hne' heq)]
        top_mem := by
          obtain ⟨d, hd, hpath⟩ := t.top_mem
          refine ⟨_, mem_renamed.mpr ⟨d, hd, by rw [hpath]; exact h.2.2.2.1.symm, rfl⟩, ?_⟩
          have hnot : ¬ src <+: d.path := by
            rw [hpath, List.prefix_nil]
            exact h.1
          rw [← hpath]
          exact move_of_not hnot dst
        parent_mem := by
          intro e he p n hp
          obtain ⟨d, hd, hne, rfl⟩ := mem_renamed.mp he
          exact h.parent_mem hd hne hp }
  else none

variable {t t' : DirTree ν} {p src dst : List ν} {n : ν}

theorem mkdir_eq_some (h : t.mkdir p n = some t') :
    t.Exists p ∧ ¬ t.Exists (p ++ [n]) ∧ t'.dirs = t.dirs ++ [⟨t.nextIno, p ++ [n]⟩] := by
  simp only [mkdir, Option.dite_none_right_eq_some, Option.some.injEq] at h
  obtain ⟨hok, rfl⟩ := h
  exact ⟨hok.1, hok.2, rfl⟩

theorem rmdir_eq_some (h : t.rmdir p = some t') :
    p ≠ [] ∧ t.Exists p ∧ t'.dirs = t.dirs.filter fun d => d.path ≠ p := by
  simp only [rmdir, Option.dite_none_right_eq_some, Option.some.injEq] at h
  obtain ⟨hok, rfl⟩ := h
  exact ⟨hok.1, hok.2.1, rfl⟩

theorem rename_eq_some (h : t.rename src dst = some t') :
    t.Renamable src dst ∧ t'.dirs = t.renamed src dst := by
  simp only [rename, Option.dite_none_right_eq_some, Option.some.injEq] at h
  obtain ⟨hok, rfl⟩ := h
  exact ⟨hok, rfl⟩

end DirTree

namespace PathName

/-- `'/'`. -/
abbrev slash : UInt8 := 47

/-- The names a directory entry can have; `NAME_MAX` is 255. -/
def Valid (s : List UInt8) : Prop := s ≠ [] ∧ slash ∉ s ∧ 0 ∉ s ∧ s.length ≤ 255

instance (s : List UInt8) : Decidable (Valid s) := inferInstanceAs (Decidable (_ ∧ _))

abbrev Name := {s : List UInt8 // Valid s}

def toName (s : List UInt8) : Option Name := if h : Valid s then some ⟨s, h⟩ else none

/-- The names in a text; repeated slashes count as one. -/
def parse (s : List UInt8) : Option (List Name) :=
  ((s.splitOn slash).filter (· ≠ [])).mapM toName

/-- The path below `root` that a path name starting with `root` stands for. -/
def resolve (root s : List UInt8) : Option (List Name) :=
  if root <+: s then parse (s.drop root.length) else none

@[simp] theorem toName_val (n : Name) : toName n.val = some n := by
  rw [toName, dif_pos n.property]

@[simp] theorem parse_nil : parse [] = some [] := by
  simp [parse]

theorem filter_splitOn_name (n : Name) :
    (n.val.splitOn slash).filter (fun s => decide (s ≠ [])) = [n.val] := by
  rw [List.splitOn_eq_singleton n.property.2.1]
  simp [n.property.1]

@[simp] theorem parse_name (n : Name) : parse n.val = some [n] := by
  rw [parse, filter_splitOn_name]
  simp

/-- A slash and a name add a component. -/
theorem parse_append (s : List UInt8) (n : Name) :
    parse (s ++ slash :: n.val) = (parse s).map (· ++ [n]) := by
  rw [parse, List.splitOn_append_cons_self, List.filter_append, filter_splitOn_name,
    List.mapM_append]
  simp [parse, Option.map_eq_bind]

theorem parse_slash (s : List UInt8) : parse (s ++ [slash]) = parse s := by
  rw [parse, List.splitOn_append_cons_self, List.filter_append]
  simp [parse]

@[simp] theorem resolve_self (root : List UInt8) : resolve root root = some [] := by
  simp [resolve]

theorem resolve_append {root s : List UInt8} {p : List Name} (h : resolve root s = some p)
    (n : Name) : resolve root (s ++ slash :: n.val) = some (p ++ [n]) := by
  simp only [resolve, Option.ite_none_right_eq_some] at h
  obtain ⟨⟨r, rfl⟩, hparse⟩ := h
  rw [List.drop_left] at hparse
  rw [resolve, if_pos (by simp), List.append_assoc, List.drop_left, parse_append, hparse]
  rfl

/-- Adding a name, with a slash where there is none yet. -/
def join (s : List UInt8) (n : Name) : List UInt8 :=
  if s.getLast? = some slash then s ++ n.val else s ++ slash :: n.val

theorem resolve_join {root s : List UInt8} {p : List Name} (h : resolve root s = some p)
    (n : Name) : resolve root (join s n) = some (p ++ [n]) := by
  rw [join]
  split_ifs with hlast
  · simp only [resolve, Option.ite_none_right_eq_some] at h
    obtain ⟨⟨r, rfl⟩, hparse⟩ := h
    rw [List.drop_left] at hparse
    rw [resolve, if_pos (by simp), List.append_assoc, List.drop_left]
    rcases List.eq_nil_or_concat r with rfl | ⟨r, c, rfl⟩
    · obtain rfl : [] = p := by simpa using hparse
      simp
    · obtain rfl : c = slash := by simpa using hlast
      rw [List.concat_eq_append, parse_slash] at hparse
      rw [List.concat_eq_append, List.append_assoc, List.singleton_append, parse_append, hparse]
      rfl
  · exact resolve_append h n

end PathName

end TlpiExercises
