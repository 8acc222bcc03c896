import TlpiExercises.ErrorFunctions
import TlpiExercises.Getopt
import TlpiExercises.Outline

/-!
# The printed directory tree

`nftw` calls `dirTree` for every file of a tree, a directory before or after what is in it, with the
path name of the file and its level, and `dirTree` prints one line for it, indented by its level.
Two trees have the same output exactly if they have the same shape and the same names, types and
i-node numbers, as long as no name starts with a blank or contains a newline.
-/
namespace TlpiExercises.NftwDirTree
open CText ErrorFunctions

/-- What `nftw` says about a file. -/
inductive FtwType where
  | d | dnr | dp | f | sl | sln | ns
  deriving DecidableEq, Repr

structure Stat where
  mode : BitVec 32
  ino : BitVec 64
  deriving DecidableEq, Repr

/-- The letter for `st_mode & S_IFMT`. -/
def letter (mode : BitVec 32) : UInt8 :=
  let fmt := mode &&& 0o170000
  if fmt = 0o100000 then 45 -- '-'
  else if fmt = 0o040000 then 100 -- 'd'
  else if fmt = 0o020000 then 99 -- 'c'
  else if fmt = 0o060000 then 98 -- 'b'
  else if fmt = 0o120000 then 108 -- 'l'
  else if fmt = 0o010000 then 112 -- 'p'
  else if fmt = 0o140000 then 115 -- 's'
  else 63 -- '?'

def typeText : FtwType → List UInt8
  | .d => ascii "D  "
  | .dnr => ascii "DNR"
  | .dp => ascii "DP "
  | .f => ascii "F  "
  | .sl => ascii "SL "
  | .sln => ascii "SLN"
  | .ns => ascii "NS "

abbrev blank : UInt8 := 32

abbrev newline : UInt8 := 10

def blanks (n : ℕ) : List UInt8 := List.replicate n blank

/-- What is printed for one file. `sbuf` is not looked at if the file could not be examined. -/
def dirTree (pathname : List UInt8) (sbuf : Stat) (type : FtwType) (base level : ℕ) : List UInt8 :=
  (if type = .ns then ascii "?" else [letter sbuf.mode]) ++
    (ascii " " ++ typeText type ++ ascii "  ") ++
    (if type ≠ .ns then (printInt sbuf.ino.toInt).leftpad 7 blank ++ [blank] else blanks 8) ++
    ([blank] ++ blanks (4 * level)) ++ (pathname.drop base ++ [newline])

/-- What a file is for `nftw`, without the order in which it is visited. -/
inductive Kind where
  | dir | dnr | f | sl | sln | ns
  deriving DecidableEq, Repr

instance : Fintype Kind := ⟨{.dir, .dnr, .f, .sl, .sln, .ns}, by intro k; cases k <;> decide⟩

/-- A directory is an `FTW_DP` if its visit is the last one of its subtree. -/
def Kind.type (depth : Bool) : Kind → FtwType
  | .dir => if depth then .dp else .d
  | .dnr => .dnr
  | .f => .f
  | .sl => .sl
  | .sln => .sln
  | .ns => .ns

/-- A file of the tree. -/
structure Entry where
  name : List UInt8
  kind : Kind
  sbuf : Stat
  deriving DecidableEq, Repr

/-- The arguments of one call of `dirTree`. -/
structure Visit where
  pathname : List UInt8
  sbuf : Stat
  type : FtwType
  base : ℕ
  level : ℕ

def Visit.print (v : Visit) : List UInt8 := dirTree v.pathname v.sbuf v.type v.base v.level

/-- `'/'`. -/
abbrev slash : UInt8 := 47

/-- A path name, ready for the names in the directory. -/
def withSlash (pathname : List UInt8) : List UInt8 :=
  if pathname.getLast? = some slash then pathname else pathname ++ [slash]

/-- The visits of the files in one directory, where `dir` is its path name with a slash. -/
def visits (depth : Bool) (dir : List UInt8) : ℕ → Forest Entry → List Visit
  | _, .nil => []
  | level, .tree e below others =>
      Forest.visit depth ⟨dir ++ e.name, e.sbuf, e.kind.type depth, dir.length, level⟩
        (visits depth (withSlash (dir ++ e.name)) (level + 1) below) ++
      visits depth dir level others

/-- The path without slashes at its end, unless it is nothing but a slash. -/
def stripped : List UInt8 → List UInt8
  | [] => []
  | c :: cs => c :: cs.rdropWhile (· = slash)

/-- The path up to its last slash. -/
def parentOf (path : List UInt8) : List UInt8 := path.rdropWhile (· ≠ slash)

/-- The file at which the walk starts. -/
structure Root where
  kind : Kind
  sbuf : Stat
  below : Forest Entry

/-- The root has the last name of its path. -/
def Root.forest (path : List UInt8) (r : Root) : Forest Entry :=
  .tree ⟨(stripped path).drop (parentOf (stripped path)).length, r.kind, r.sbuf⟩ r.below .nil

def nftw (depth : Bool) (path : List UInt8) (r : Root) : List Visit :=
  visits depth (parentOf (stripped path)) 0 (r.forest path)

structure Flags where
  depth : Bool
  mount : Bool
  phys : Bool
  deriving DecidableEq, Repr

/-- `"dmp"`. -/
def optstring : Getopt.Optstring := fun c => if c = 100 ∨ c = 109 ∨ c = 112 then some false else none

/-- The `switch`; any other option ends the program with the usage. -/
def setFlag (flags : Flags) : Getopt.Item → Option Flags
  | .flag 100 => some { flags with depth := true }
  | .flag 109 => some { flags with mount := true }
  | .flag 112 => some { flags with phys := true }
  | _ => none

/-- The flags and the directory of a command line. -/
def readArgs (args : List (List UInt8)) : Option (Flags × List UInt8) := do
  let flags ← (Getopt.getopt optstring args).foldlM setFlag ⟨false, false, false⟩
  match Getopt.operands optstring args with
  | [] => some (flags, ascii ".")
  | [path] => some (flags, path)
  | _ => none

/-- `main`: the exit status and the output. What `nftw` finds depends on whether it follows links
and stays in one file system; it finds nothing if the root cannot be examined. -/
def main (find : Flags → List UInt8 → Option Root) (args : List (List UInt8)) : ℕ × List UInt8 :=
  match readArgs args with
  | none => (exitFailure, [])
  | some (flags, path) =>
      match find flags path with
      | none => (exitFailure, [])
      | some r => (0, (nftw flags.depth path r).flatMap Visit.print)

/-- What the output says about a file: not the permissions, and of a file that could not be
examined only the name. -/
structure Shown where
  name : List UInt8
  kind : Kind
  stat : Option (UInt8 × BitVec 64)
  deriving DecidableEq, Repr

def Entry.shown (e : Entry) : Shown :=
  ⟨e.name, e.kind, if e.kind = .ns then none else some (letter e.sbuf.mode, e.sbuf.ino)⟩

/-- A name that cannot be taken for the indentation or the end of a line. -/
def Plain (name : List UInt8) : Prop := newline ∉ name ∧ name.head? ≠ some blank

instance (name : List UInt8) : Decidable (Plain name) :=
  inferInstanceAs (Decidable (newline ∉ name ∧ name.head? ≠ some blank))

section Lines

variable {depth : Bool} {level level' : ℕ} {e e' : Entry}

/-- The type of a file and what it takes of the line, of fixed length. -/
def Entry.start (depth : Bool) (e : Entry) : List UInt8 :=
  (if e.kind = .ns then 63 else letter e.sbuf.mode) :: blank ::
    (typeText (e.kind.type depth) ++ [blank, blank])

/-- The number of the i-node, up to the blanks behind it. -/
def Entry.number (e : Entry) : List UInt8 :=
  if e.kind = .ns then [] else (printInt e.sbuf.ino.toInt).leftpad 7 blank

/-- The blanks between the number and the name. -/
def Entry.gap (level : ℕ) (e : Entry) : List UInt8 :=
  blanks (if e.kind = .ns then 9 + 4 * level else 2 + 4 * level)

/-- A line without its end. -/
def Entry.line (depth : Bool) (level : ℕ) (e : Entry) : List UInt8 :=
  e.start depth ++ (e.number ++ (e.gap level ++ e.name))

theorem blanks_append (m n : ℕ) : blanks m ++ blanks n = blanks (m + n) :=
  List.replicate_append_replicate

theorem type_eq_ns_iff {k : Kind} : k.type depth = .ns ↔ k = .ns := by
  cases k <;> cases depth <;> decide

theorem dirTree_eq_line (dir : List UInt8) :
    dirTree (dir ++ e.name) e.sbuf (e.kind.type depth) dir.length level =
      e.line depth level ++ [newline] := by
  rw [dirTree, List.drop_left, Entry.line, Entry.start, Entry.number, Entry.gap]
  by_cases hns : e.kind = .ns
  · have hblanks : blanks 8 ++ ([blank] ++ blanks (4 * level)) = blanks (9 + 4 * level) := by
      rw [← List.append_assoc, show blanks 8 ++ [blank] = blanks 9 from rfl, blanks_append]
    simp only [type_eq_ns_iff, hns, if_true, not_true_eq_false, if_false, ne_eq, ← hblanks]
    simp [ascii]
  · have hblanks : [blank] ++ ([blank] ++ blanks (4 * level)) = blanks (2 + 4 * level) := by
      rw [← List.append_assoc, show [blank] ++ [blank] = blanks 2 from rfl, blanks_append]
    simp only [type_eq_ns_iff, hns, if_false, not_false_eq_true, if_true, ne_eq, ← hblanks]
    simp [ascii]

/-- The program prints the outline of the tree. -/
theorem visits_print (dir : List UInt8) (level : ℕ) (t : Forest Entry) :
    (visits depth dir level t).map Visit.print =
      (t.outline depth level).map fun x => x.2.line depth x.1 ++ [newline] := by
  induction t generalizing dir level with
  | nil => rfl
  | tree e below others ihBelow ihOthers =>
      rw [visits, Forest.outline, List.map_append, List.map_append, Forest.map_visit,
        Forest.map_visit, ihBelow, ihOthers, Visit.print, dirTree_eq_line]

theorem line_congr (h : e.shown = e'.shown) : e.line depth level = e'.line depth level := by
  obtain ⟨hname, hkind, hstat⟩ := Shown.mk.inj h
  rw [hkind] at hstat
  unfold Entry.line Entry.start Entry.number Entry.gap
  by_cases hns : e'.kind = .ns
  · simp [hname, hkind, hns]
  · simp only [if_neg hns, Option.some.injEq, Prod.mk.injEq] at hstat
    simp [hname, hkind, hstat]

theorem blank_notMem_printInt (x : ℤ) : blank ∉ printInt x :=
  (isNumeral_printInt x).notMem (by decide) (by decide) (by decide)

theorem newline_notMem_line (hname : newline ∉ e.name) : newline ∉ e.line depth level := by
  have hblanks : ∀ n, newline ∉ blanks n := fun n h => absurd (List.eq_of_mem_replicate h) (by decide)
  have hnumber : newline ∉ (printInt e.sbuf.ino.toInt).leftpad 7 blank := by
    rw [List.leftpad, List.mem_append, not_or]
    exact ⟨hblanks _, (isNumeral_printInt _).notMem (by decide) (by decide) (by decide)⟩
  have hletter : letter e.sbuf.mode ≠ newline := by
    simp only [letter]
    split_ifs <;> decide
  have htype : newline ∉ typeText (e.kind.type depth) := by
    cases e.kind <;> cases depth <;> decide
  simp only [Entry.line, Entry.start, Entry.number, Entry.gap, List.mem_append, List.mem_cons,
    not_or]
  refine ⟨⟨?_, by decide, htype, by decide⟩, ?_, hblanks _, hname⟩
  · split_ifs
    · decide
    · exact hletter.symm
  · split_ifs
    · simp
    · exact hnumber

theorem start_length : (e.start depth).length = 7 := by
  unfold Entry.start
  cases e.kind <;> cases depth <;> rfl

theorem kind_of_typeText {k k' : Kind} (h : typeText (k.type depth) = typeText (k'.type depth)) :
    k = k' := by
  revert depth k k'
  decide

/-- The blanks before a name that does not start with one. -/
theorem blanks_append_inj {m n : ℕ} {text text' : List UInt8} (htext : text.head? ≠ some blank)
    (htext' : text'.head? ≠ some blank) (h : blanks m ++ text = blanks n ++ text') :
    m = n ∧ text = text' := by
  have hhead : ∀ {text : List UInt8}, text.head? ≠ some blank → ∀ c ∈ text.head?, c ≠ blank :=
    fun htext c hc heq => htext (heq ▸ hc)
  obtain ⟨hblanks, hrest⟩ := append_inj_of_forall (fun _ => List.eq_of_mem_replicate)
    (fun _ => List.eq_of_mem_replicate) (hhead htext) (hhead htext') h
  exact ⟨List.replicate_left_injective blank hblanks, hrest⟩

/-- A number, and what follows it after a blank. -/
theorem leftpad_append_inj {x y : ℤ} {w m n : ℕ} {text text' : List UInt8}
    (h : (printInt x).leftpad w blank ++ (blanks (m + 1) ++ text) =
      (printInt y).leftpad w blank ++ (blanks (n + 1) ++ text')) :
    x = y ∧ blanks (m + 1) ++ text = blanks (n + 1) ++ text' := by
  have hhead : ∀ (x : ℤ) (rest : List UInt8), (printInt x ++ rest).head? ≠ some blank := by
    intro x rest heq
    rw [List.head?_append_of_ne_nil _ (isNumeral_printInt x).ne_nil] at heq
    exact blank_notMem_printInt x (List.mem_of_mem_head? heq)
  have hnum : ∀ x : ℤ, ∀ c ∈ printInt x, c ≠ blank :=
    fun x c hc heq => blank_notMem_printInt x (heq ▸ hc)
  have hblank : ∀ (n : ℕ) (text : List UInt8), ∀ c ∈ (blanks (n + 1) ++ text).head?, ¬ c ≠ blank := by
    simp [blanks, List.replicate_succ]
  rw [List.leftpad, List.leftpad, List.append_assoc, List.append_assoc] at h
  obtain ⟨-, hrest⟩ := blanks_append_inj (hhead x _) (hhead y _) h
  obtain ⟨hprint, hgap⟩ := append_inj_of_forall (hnum x) (hnum y) (hblank m text) (hblank n text') hrest
  have hscan := scanInt_printInt x (show isdigit blank = false from rfl) []
  rw [hprint, scanInt_printInt y rfl] at hscan
  exact ⟨(Prod.mk.inj (Option.some.inj hscan)).1.symm, hgap⟩

/-- A line says where the file is and what it is. -/
theorem shown_of_line_eq (hname : e.name.head? ≠ some blank) (hname' : e'.name.head? ≠ some blank)
    (h : e.line depth level = e'.line depth level') : level = level' ∧ e.shown = e'.shown := by
  obtain ⟨hstart, hrest⟩ := List.append_inj h (by rw [start_length, start_length])
  obtain ⟨hletter, htype⟩ := List.cons.inj hstart
  have hkind : e.kind = e'.kind := kind_of_typeText (List.append_inj_left' (List.cons.inj htype).2 rfl)
  unfold Entry.number Entry.gap at hrest
  unfold Entry.shown
  by_cases hns : e.kind = .ns
  · have hns' := hkind ▸ hns
    rw [if_pos hns, if_pos hns, if_pos hns', if_pos hns'] at hrest
    obtain ⟨hlevel, htext⟩ := blanks_append_inj hname hname' hrest
    exact ⟨by omega, by rw [htext, hkind, if_pos hns', if_pos hns']⟩
  · have hns' : e'.kind ≠ .ns := hkind ▸ hns
    rw [if_neg hns, if_neg hns, if_neg hns', if_neg hns'] at hrest
    rw [if_neg hns, if_neg hns'] at hletter
    obtain ⟨hino, hrest⟩ := leftpad_append_inj (m := 1 + 4 * level) (n := 1 + 4 * level') (by
      convert hrest using 4 <;> omega)
    obtain ⟨hlevel, htext⟩ := blanks_append_inj hname hname' hrest
    refine ⟨by omega, ?_⟩
    rw [htext, hkind, hletter, BitVec.toInt_inj.mp hino]

end Lines

/-- Two walks from the same path have the same output exactly if they show the same tree. -/
theorem nftw_print_eq_iff {depth : Bool} {path : List UInt8} {r r' : Root}
    (hplain : ∀ e ∈ (r.forest path).nodes, Plain e.name)
    (hplain' : ∀ e ∈ (r'.forest path).nodes, Plain e.name) :
    (nftw depth path r).flatMap Visit.print = (nftw depth path r').flatMap Visit.print ↔
      (r.forest path).map Entry.shown = (r'.forest path).map Entry.shown := by
  let line (x : ℕ × Entry) : List UInt8 := x.2.line depth x.1
  let shown (x : ℕ × Entry) : ℕ × Shown := (x.1, x.2.shown)
  let files (r : Root) := (r.forest path).outline depth 0
  have hlines : ∀ r : Root, (nftw depth path r).flatMap Visit.print =
      ((files r).map line).flatMap (· ++ [newline]) := by
    intro r
    rw [List.flatMap_def, nftw, visits_print, List.flatMap_map, List.flatMap_def]
  have hnewline : ∀ r : Root, (∀ e ∈ (r.forest path).nodes, Plain e.name) →
      ∀ l ∈ (files r).map line, newline ∉ l := by
    intro r hr l hl
    obtain ⟨x, hx, rfl⟩ := List.mem_map.mp hl
    exact newline_notMem_line (hr _ (Forest.mem_nodes_of_mem_outline hx)).1
  calc (nftw depth path r).flatMap Visit.print = (nftw depth path r').flatMap Visit.print
      ↔ (files r).map line = (files r').map line := by
        rw [hlines, hlines]
        exact ⟨flatMap_terminated_injective (hnewline r hplain) (hnewline r' hplain'),
          fun h => by rw [h]⟩
    _ ↔ (files r).map shown = (files r').map shown := by
        refine ⟨map_eq_map_of_imp fun x hx y hy hline => ?_,
          map_eq_map_of_imp fun x hx y hy hshown => ?_⟩
        · obtain ⟨hlevel, hshown⟩ := shown_of_line_eq
            (hplain _ (Forest.mem_nodes_of_mem_outline hx)).2
            (hplain' _ (Forest.mem_nodes_of_mem_outline hy)).2 hline
          exact Prod.ext hlevel hshown
        · obtain ⟨hlevel, hshown⟩ := Prod.mk.inj hshown
          exact (line_congr hshown).trans (congrArg (y.2.line depth) hlevel)
    _ ↔ (r.forest path).map Entry.shown = (r'.forest path).map Entry.shown := by
        rw [← Forest.outline_map, ← Forest.outline_map]
        exact (Forest.outline_injective depth 0).eq_iff

/-- On the same command line two trees give the same output exactly if they have the same shape and
the same names, kinds and i-node numbers. -/
theorem output_determines_tree {find find' : Flags → List UInt8 → Option Root}
    {args : List (List UInt8)} {flags : Flags} {path : List UInt8} {r r' : Root}
    (hargs : readArgs args = some (flags, path)) (hr : find flags path = some r)
    (hr' : find' flags path = some r') (hplain : ∀ e ∈ (r.forest path).nodes, Plain e.name)
    (hplain' : ∀ e ∈ (r'.forest path).nodes, Plain e.name) :
    main find args = main find' args ↔
      (r.forest path).map Entry.shown = (r'.forest path).map Entry.shown := by
  have hmain : ∀ {find r}, find flags path = some r →
      main find args = (0, (nftw flags.depth path r).flatMap Visit.print) := by
    intro find r hr
    simp only [main, hargs, hr]
  rw [hmain hr, hmain hr', Prod.mk.injEq, nftw_print_eq_iff hplain hplain']
  exact and_iff_right rfl

/-- A directory `d` and a file in it, or next to it. -/
def dirWith (name : List UInt8) (inside : Bool) : Root :=
  let stat : Stat := ⟨0o040755, 7⟩
  let file : Forest Entry := .tree ⟨name, .f, ⟨0o100644, 8⟩⟩ .nil .nil
  ⟨.dir, stat, if inside then .tree ⟨[100], .dir, stat⟩ file .nil
    else .tree ⟨[100], .dir, stat⟩ .nil file⟩

theorem output_determines_tree_moved :
    main (fun _ _ => some (dirWith [120] true)) [] ≠ main (fun _ _ => some (dirWith [120] false)) [] :=
  mt (output_determines_tree rfl rfl rfl (by decide) (by decide)).mp (by decide)

/-- Four blanks at the start of a name look like a level. -/
example : main (fun _ _ => some (dirWith [120] true)) [] =
    main (fun _ _ => some (dirWith [32, 32, 32, 32, 120] false)) [] := by
  decide +kernel

end TlpiExercises.NftwDirTree
