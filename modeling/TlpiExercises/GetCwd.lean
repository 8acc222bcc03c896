import TlpiExercises.DirTree
import TlpiExercises.KeyedList

/-!
# The current directory from the directories above it

`mygetcwd` finds the name of the current directory in its parent by the device and inode
number, moves up, and so on to the root, which is its own parent; the path grows at its
front. The tree does not change meanwhile, and a call on an entry that exists succeeds, so
that `errno` is zero when `readdir` returns NULL.
-/
namespace TlpiExercises.GetCwd
open PathName

/-- `"."` and `".."`. -/
abbrev dot : List UInt8 := [46]
abbrev dotDot : List UInt8 := [46, 46]

/-- The size of `tmp`. -/
abbrev tmpSize : ℕ := 500

/-- A directory or an ordinary file, with `st_dev` and `st_ino`. -/
structure Entry where
  path : List Name
  id : ℕ × ℕ
  isDir : Bool
  deriving DecidableEq

/-- A tree of directories and files. No other entry has the numbers of a directory; files
may share theirs. -/
structure FileTree where
  entries : List Entry
  paths_nodup : (entries.map Entry.path).Nodup
  root_mem : ∃ d ∈ entries, d.path = [] ∧ d.isDir
  parent_mem : ∀ e ∈ entries, ∀ p n, e.path = p ++ [n] → ∃ d ∈ entries, d.path = p ∧ d.isDir
  dir_id : ∀ d ∈ entries, d.isDir → ∀ e ∈ entries, e.id = d.id → e = d
  names_ne : ∀ e ∈ entries, ∀ n ∈ e.path, n.val ≠ dot ∧ n.val ≠ dotDot

/-- Ways the function does not return: an `errExit`, more text than `tmp` holds, or more
iterations than allowed for. -/
inductive Stop where
  | exited
  | overflow
  | fuel
  deriving DecidableEq, Repr

namespace FileTree

variable (t : FileTree)

def find (p : List Name) : Except Stop Entry :=
  match KeyedList.lookup Entry.path t.entries p with
  | some e => .ok e
  | none => .error .exited

/-- The entry a name stands for in the directory `cur`; the root is its own parent. -/
def walk (cur : List Name) (name : List UInt8) : Except Stop Entry :=
  if name = dot then t.find cur
  else if name = dotDot then t.find cur.dropLast
  else match toName name with
    | some n => t.find (cur ++ [n])
    | none => .error .exited

def stat (cur : List Name) (name : List UInt8) : Except Stop (ℕ × ℕ) := do
  let e ← t.walk cur name
  return e.id

/-- The directory that `chdir` and `open` get to. -/
def chdir (cur : List Name) (name : List UInt8) : Except Stop (List Name) := do
  let e ← t.walk cur name
  if e.isDir then return e.path else throw .exited

/-- The names in a directory. -/
def names (p : List Name) : List (List UInt8) :=
  t.entries.filterMap fun e =>
    if e.path.dropLast = p then e.path.getLast?.map Subtype.val else none

end FileTree

/-- The order in which `readdir` lists each directory. -/
structure Listing (t : FileTree) where
  order : List Name → List (List UInt8)
  perm : ∀ d ∈ t.entries, d.isDir → (order d.path).Perm (dot :: dotDot :: t.names d.path)

/-- `sprintf(tmp, ...)` with this text, and `strcpy` back. -/
def sprintf (text : List UInt8) : Except Stop (List UInt8) :=
  if tmpSize ≤ text.length then .error .overflow else .ok text

section Source

variable (t : FileTree) (stat : List Name → List UInt8 → Except Stop (ℕ × ℕ))
  (readdir : List Name → List (List UInt8))

/-- The loop over the entries of the directory `cur`: the path, with the name of the entry
with these numbers in front of it. -/
def findName (cur : List Name) (dirStats : ℕ × ℕ) (cwd : List UInt8) :
    List (List UInt8) → Except Stop (List UInt8)
  | [] => return cwd
  | dName :: rest => do
      if dName = dot ∨ dName = dotDot then findName cur dirStats cwd rest
      else
        let curStats ← stat cur dName
        if curStats = dirStats then sprintf (dName ++ (if cwd = [] then [] else [slash]) ++ cwd)
        else findName cur dirStats cwd rest

/-- The loop up to the root, for at most so many directories: where it ends, and the path. -/
def climb : ℕ → List Name → ℕ × ℕ → List UInt8 → Except Stop (List Name × List UInt8)
  | 0, _, _, _ => throw .fuel
  | fuel + 1, cur, dirStats, cwd => do
      let upperDirStats ← stat cur dotDot
      if dirStats = upperDirStats then
        let cwd ← sprintf (slash :: cwd)
        return (cur, cwd)
      else
        let cur ← t.chdir cur dotDot
        let cwd ← findName stat cur dirStats cwd (readdir cur)
        climb fuel cur upperDirStats cwd

/-- The current directory afterwards, which `fchdir(initFd)` sets, and the path, for any `stat`
and `readdir`. -/
def mygetcwdWith (fuel : ℕ) (cur : List Name) : Except Stop (List Name × List UInt8) := do
  let initFd ← t.chdir cur dot
  let upperDirStats ← stat cur dot
  let (_, cwd) ← climb t stat readdir fuel cur upperDirStats []
  return (initFd, cwd)

variable {t}

/-- On a tree without links. -/
def mygetcwd (readdir : Listing t) : ℕ → List Name → Except Stop (List Name × List UInt8) :=
  mygetcwdWith t t.stat readdir.order

end Source

/-- Names with slashes between them. -/
def relativePath (p : List Name) : List UInt8 := [slash].intercalate (p.map Subtype.val)

def absolutePath (p : List Name) : List UInt8 := slash :: relativePath p

@[simp] theorem relativePath_nil : relativePath [] = [] := rfl

theorem relativePath_eq_nil_iff {p : List Name} : relativePath p = [] ↔ p = [] := by
  cases p with
  | nil => simp
  | cons n p =>
      have hn := n.property.1
      cases p with
      | nil => simp [relativePath, hn]
      | cons m p => simp [relativePath, List.intercalate, hn]

/-- A name in front of a path, with a slash if there is a path. -/
theorem relativePath_cons (n : Name) (p : List Name) :
    relativePath (n :: p) =
      n.val ++ (if relativePath p = [] then [] else [slash]) ++ relativePath p := by
  cases p with
  | nil => simp [relativePath]
  | cons m p =>
      have hne : relativePath (m :: p) ≠ [] := mt relativePath_eq_nil_iff.mp (by simp)
      rw [if_neg hne]
      simp [relativePath, List.intercalate]

theorem length_relativePath_le (p q : List Name) :
    (relativePath q).length ≤ (relativePath (p ++ q)).length := by
  induction p with
  | nil => simp
  | cons n p ih =>
      rw [List.cons_append, relativePath_cons]
      simp only [List.length_append]
      omega

section Calls

variable {t : FileTree} {d e : Entry}

theorem find_of_mem (he : e ∈ t.entries) : t.find e.path = .ok e := by
  rw [FileTree.find, KeyedList.lookup_of_mem t.paths_nodup he]

theorem eq_of_path (hd : d ∈ t.entries) (he : e ∈ t.entries) (h : d.path = e.path) : d = e :=
  List.inj_on_of_nodup_map t.paths_nodup hd he h

theorem stat_of_walk {cur : List Name} {name : List UInt8} (h : t.walk cur name = .ok e) :
    t.stat cur name = .ok e.id := by
  rw [FileTree.stat, h]
  rfl

theorem chdir_of_walk {cur : List Name} {name : List UInt8} (h : t.walk cur name = .ok e)
    (hdir : e.isDir) : t.chdir cur name = .ok e.path := by
  rw [FileTree.chdir, h]
  simp only [bind, Except.bind, if_pos hdir]
  rfl

theorem walk_dot (hd : d ∈ t.entries) : t.walk d.path dot = .ok d := by
  rw [FileTree.walk, if_pos rfl, find_of_mem hd]

theorem walk_dotDot {p : List Name} (hd : d ∈ t.entries) (hp : p.dropLast = d.path) :
    t.walk p dotDot = .ok d := by
  rw [FileTree.walk, if_neg (by decide), if_pos rfl, hp, find_of_mem hd]

theorem walk_name {p : List Name} {n : Name} (he : e ∈ t.entries) (hp : e.path = p ++ [n]) :
    t.walk p n.val = .ok e := by
  obtain ⟨hdot, hdotDot⟩ := t.names_ne e he n (by simp [hp])
  rw [FileTree.walk, if_neg hdot, if_neg hdotDot, toName_val]
  simp only [← hp, find_of_mem he]

/-- The names in a directory are the last names of the paths that lead there. -/
theorem mem_names {p : List Name} {s : List UInt8} :
    s ∈ t.names p ↔ ∃ e ∈ t.entries, ∃ n : Name, n.val = s ∧ e.path = p ++ [n] := by
  rw [FileTree.names, List.mem_filterMap]
  refine exists_congr fun e => and_congr_right fun _ => ?_
  rcases List.eq_nil_or_concat' e.path with hnil | ⟨q, n, hq⟩
  · simp [hnil]
  · rw [hq, List.dropLast_concat, List.getLast?_concat, Option.map_some]
    constructor
    · intro h
      obtain ⟨rfl, hs⟩ := Option.ite_none_right_eq_some.mp h
      exact ⟨n, Option.some.inj hs, rfl⟩
    · rintro ⟨m, rfl, h⟩
      obtain ⟨rfl, hm⟩ := List.append_inj' h rfl
      rw [if_pos rfl, List.singleton_inj.mp hm]

end Calls

theorem sprintf_eq {text : List UInt8} (h : text.length < tmpSize) : sprintf text = .ok text :=
  if_neg (not_le.mpr h)

section Climbing

variable {t : FileTree} {d : Entry}

/-- The loop over a directory stops at the entry with the numbers of the one looked for. -/
theorem findName_eq (hd : d ∈ t.entries) (hdir : d.isDir) {p : List Name} {n : Name}
    (hp : d.path = p ++ [n]) (cwd : List UInt8) {listing : List (List UInt8)}
    (hnames : ∀ s ∈ listing, s = dot ∨ s = dotDot ∨ s ∈ t.names p) (hn : n.val ∈ listing) :
    findName t.stat p d.id cwd listing =
      sprintf (n.val ++ (if cwd = [] then [] else [slash]) ++ cwd) := by
  obtain ⟨hdot, hdotDot⟩ := t.names_ne d hd n (by simp [hp])
  induction listing with
  | nil => simp at hn
  | cons s listing ih =>
      have hrest : ∀ s ∈ listing, s = dot ∨ s = dotDot ∨ s ∈ t.names p := fun r hr =>
        hnames r (List.mem_cons_of_mem _ hr)
      rw [findName]
      by_cases hskip : s = dot ∨ s = dotDot
      · rw [if_pos hskip]
        refine ih hrest ((List.mem_cons.mp hn).resolve_left ?_)
        rintro rfl
        exact hskip.elim hdot hdotDot
      · rw [if_neg hskip]
        obtain ⟨e, he, m, rfl, hm⟩ := mem_names.mp (by
          have hs := hnames s List.mem_cons_self
          tauto)
        rw [stat_of_walk (walk_name he hm)]
        by_cases hid : e.id = d.id
        · -- no other entry has the numbers of the directory
          have hmn : p ++ [m] = p ++ [n] := by rw [← hm, ← hp, t.dir_id d hd hdir e he hid]
          obtain rfl : m = n := by simpa using hmn
          simp only [bind, Except.bind, if_pos hid]
        · simp only [bind, Except.bind, if_neg hid]
          refine ih hrest ((List.mem_cons.mp hn).resolve_left fun heq => hid ?_)
          rw [eq_of_path he hd (by rw [hm, hp, Subtype.ext heq])]

/-- In whatever order a directory is listed, the name of a directory in it is found. -/
theorem findName_listing (readdir : Listing t) {u : Entry} (hu : u ∈ t.entries) (hudir : u.isDir)
    (hd : d ∈ t.entries) (hdir : d.isDir) {n : Name} (hp : d.path = u.path ++ [n])
    (cwd : List UInt8) :
    findName t.stat u.path d.id cwd (readdir.order u.path) =
      sprintf (n.val ++ (if cwd = [] then [] else [slash]) ++ cwd) := by
  have hperm := readdir.perm u hu hudir
  refine findName_eq hd hdir hp cwd ?_ ?_
  · intro s hs
    simpa using hperm.mem_iff.mp hs
  · refine hperm.mem_iff.mpr (List.mem_cons_of_mem _ (List.mem_cons_of_mem _ ?_))
    exact mem_names.mpr ⟨d, hd, n, rfl, hp⟩

/-- From a directory on, the names that lead to it are put in front of the path. -/
theorem climb_eq (readdir : Listing t) {fuel : ℕ} (hd : d ∈ t.entries) (hdir : d.isDir)
    (q : List Name) (hfuel : d.path.length < fuel)
    (hlen : (absolutePath (d.path ++ q)).length < tmpSize) :
    climb t t.stat readdir.order fuel d.path d.id (relativePath q) =
      .ok ([], absolutePath (d.path ++ q)) := by
  induction fuel generalizing d q with
  | zero => omega
  | succ fuel ih =>
      rw [climb]
      rcases List.eq_nil_or_concat' d.path with hnil | ⟨p, n, hp⟩
      · rw [hnil, List.nil_append, absolutePath] at hlen
        rw [stat_of_walk (walk_dotDot hd (by simp [hnil])), hnil, List.nil_append, absolutePath]
        simp only [bind, Except.bind, if_true]
        rw [sprintf_eq hlen]
        rfl
      · obtain ⟨u, hu, hupath, hudir⟩ := t.parent_mem d hd p n hp
        have hup : d.path.dropLast = u.path := by simp [hp, hupath]
        have hid : d.id ≠ u.id := by
          intro heq
          have hpaths := congrArg Entry.path (t.dir_id u hu hudir d hd heq)
          simp [hp, hupath] at hpaths
        have hwalk := walk_dotDot hu hup
        have hpath : d.path ++ q = u.path ++ (n :: q) := by simp [hp, hupath]
        have hshort : (relativePath (n :: q)).length < tmpSize := by
          have hle := length_relativePath_le u.path (n :: q)
          rw [hpath, absolutePath, List.length_cons] at hlen
          omega
        rw [stat_of_walk hwalk, chdir_of_walk hwalk hudir]
        simp only [bind, Except.bind, if_neg hid]
        rw [findName_listing readdir hu hudir hd hdir (by rw [hupath, hp]), ← relativePath_cons,
          sprintf_eq hshort]
        dsimp only
        rw [hpath] at hlen ⊢
        exact ih hu hudir (n :: q) (by rw [hp] at hfuel; simp [hupath] at *; omega) hlen

end Climbing

/-- For every tree, every directory with a path of under 500 bytes and every order of the
entries, `mygetcwd` returns the absolute path of the directory it was called in and is back
there. -/
theorem mygetcwd_absolutePath {t : FileTree} (readdir : Listing t) {d : Entry} (hd : d ∈ t.entries)
    (hdir : d.isDir) (hlen : (absolutePath d.path).length < tmpSize) {fuel : ℕ}
    (hfuel : d.path.length < fuel) :
    mygetcwd readdir fuel d.path = .ok (d.path, absolutePath d.path) := by
  have hclimb := climb_eq readdir hd hdir [] hfuel (by rwa [List.append_nil])
  rw [relativePath_nil, List.append_nil] at hclimb
  rw [mygetcwd, mygetcwdWith, chdir_of_walk (walk_dot hd) hdir, stat_of_walk (walk_dot hd)]
  simp only [bind, Except.bind, hclimb]
  rfl

/-- `/u/v` beside two names of one file. -/
def smallEntries : List Entry :=
  [⟨[], (1, 2), true⟩, ⟨[⟨[102], by decide⟩], (1, 9), false⟩, ⟨[⟨[117], by decide⟩], (1, 3), true⟩,
    ⟨[⟨[117], by decide⟩, ⟨[102], by decide⟩], (1, 9), false⟩,
    ⟨[⟨[117], by decide⟩, ⟨[118], by decide⟩], (1, 4), true⟩]

def smallTree : FileTree where
  entries := smallEntries
  paths_nodup := by decide
  root_mem := by decide
  parent_mem := by
    have hparent : ∀ e ∈ smallEntries, e.path ≠ [] →
        ∃ d ∈ smallEntries, d.path = e.path.dropLast ∧ d.isDir := by decide
    intro e he p n hp
    have hd := hparent e he (by simp [hp])
    rwa [hp, List.dropLast_concat] at hd
  dir_id := by decide
  names_ne := by decide

/-- `readdir` that lists the two special names last. -/
def specialLast (t : FileTree) : Listing t where
  order p := t.names p ++ [dot, dotDot]
  perm _ _ _ := List.perm_append_comm

theorem mygetcwd_absolutePath_nested :
    mygetcwd (specialLast smallTree) 3 [⟨[117], by decide⟩, ⟨[118], by decide⟩] =
      .ok ([⟨[117], by decide⟩, ⟨[118], by decide⟩], [47, 117, 47, 118]) :=
  mygetcwd_absolutePath (specialLast smallTree)
    (d := ⟨[⟨[117], by decide⟩, ⟨[118], by decide⟩], (1, 4), true⟩) (by decide) rfl (by decide)
    (by decide)

end TlpiExercises.GetCwd
