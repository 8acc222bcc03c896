import TlpiExercises.Exits
import TlpiExercises.GetCwd

/-!
# Symbolic links beside the directories above

`mygetcwd` calls `stat` on each name it reads, and `stat` follows symbolic links: a link has the
numbers of the entry it leads to, and a link that leads nowhere ends the program. The links
are added to a tree of directories and files. Where a link leads to, over other links or not, is
an entry of that tree or nothing.
-/
namespace TlpiExercises.GetCwdLinks
open PathName GetCwd Exits

/-- A link in a directory, with the entry it leads to if there is one. -/
structure Link where
  dir : List Name
  name : Name
  target : Option Entry
  deriving DecidableEq

/-- What a link is found by. -/
def Link.key (l : Link) : List Name × List UInt8 := (l.dir, l.name.val)

/-- Links added to the directories of a tree under new names. -/
structure Links (t : FileTree) where
  links : List Link
  keys_nodup : (links.map Link.key).Nodup
  dir_mem : ∀ l ∈ links, ∃ d ∈ t.entries, d.path = l.dir ∧ d.isDir
  target_mem : ∀ l ∈ links, ∀ e ∈ l.target, e ∈ t.entries
  fresh : ∀ l ∈ links, l.name.val ∉ t.names l.dir
  names_ne : ∀ l ∈ links, l.name.val ≠ dot ∧ l.name.val ≠ dotDot

namespace Links

variable {t : FileTree} (links : Links t)

def stat (cur : List Name) (name : List UInt8) : Except Stop (ℕ × ℕ) :=
  match KeyedList.lookup Link.key links.links (cur, name) with
  | some l =>
      match l.target with
      | some e => .ok e.id
      | none => .error .exited
  | none => t.stat cur name

/-- The names of the links in a directory. -/
def names (p : List Name) : List (List UInt8) :=
  (links.links.filter fun l => l.dir = p).map fun l => l.name.val

end Links

/-- The order in which `readdir` lists each directory, links included. -/
structure Listing {t : FileTree} (links : Links t) where
  order : List Name → List (List UInt8)
  perm : ∀ d ∈ t.entries, d.isDir →
    (order d.path).Perm (dot :: dotDot :: (t.names d.path ++ links.names d.path))

/-- The function with a `stat` that follows links. -/
def mygetcwd {t : FileTree} {links : Links t} (readdir : Listing links) :
    ℕ → List Name → Except Stop (List Name × List UInt8) :=
  mygetcwdWith t links.stat readdir.order

section NoLinks

variable {t : FileTree}

/-- A tree to which nothing is added. -/
def noLinks (t : FileTree) : Links t where
  links := []
  keys_nodup := List.nodup_nil
  dir_mem := by simp
  target_mem := by simp
  fresh := by simp
  names_ne := by simp

def noLinksListing (readdir : GetCwd.Listing t) : Listing (noLinks t) where
  order := readdir.order
  perm d hd hdir := by
    have hnames : (noLinks t).names d.path = [] := rfl
    rw [hnames, List.append_nil]
    exact readdir.perm d hd hdir

/-- Without links, this is the function on the tree alone. -/
theorem mygetcwd_noLinks (readdir : GetCwd.Listing t) :
    mygetcwd (noLinksListing readdir) = GetCwd.mygetcwd readdir :=
  rfl

end NoLinks

section Stat

variable {t : FileTree} {links : Links t}

theorem stat_of_link {l : Link} (hl : l ∈ links.links) :
    links.stat l.dir l.name.val =
      match l.target with
      | some e => .ok e.id
      | none => .error .exited := by
  have hlookup : KeyedList.lookup Link.key links.links (l.dir, l.name.val) = some l :=
    KeyedList.lookup_of_mem links.keys_nodup hl
  rw [Links.stat, hlookup]

theorem stat_of_not_link {cur : List Name} {s : List UInt8}
    (h : ∀ l ∈ links.links, l.dir = cur → l.name.val ≠ s) : links.stat cur s = t.stat cur s := by
  have hlookup : KeyedList.lookup Link.key links.links (cur, s) = none := by
    rw [KeyedList.lookup_eq_none_iff]
    intro hmem
    obtain ⟨l, hl, hkey⟩ := List.mem_map.mp hmem
    exact h l hl (Prod.ext_iff.mp hkey).1 (Prod.ext_iff.mp hkey).2
  rw [Links.stat, hlookup]

theorem stat_dot (cur : List Name) : links.stat cur dot = t.stat cur dot :=
  stat_of_not_link fun l hl _ => (links.names_ne l hl).1

theorem stat_dotDot (cur : List Name) : links.stat cur dotDot = t.stat cur dotDot :=
  stat_of_not_link fun l hl _ => (links.names_ne l hl).2

theorem not_link_of_mem_names {p : List Name} {s : List UInt8} (h : s ∈ t.names p) :
    ∀ l ∈ links.links, l.dir = p → l.name.val ≠ s := by
  rintro l hl rfl rfl
  exact links.fresh l hl h

theorem eq_of_key {l k : Link} (hl : l ∈ links.links) (hk : k ∈ links.links)
    (hdir : l.dir = k.dir) (hname : l.name.val = k.name.val) : l = k :=
  List.inj_on_of_nodup_map links.keys_nodup hl hk (Prod.ext hdir hname)

theorem mem_names_iff {p : List Name} {s : List UInt8} :
    s ∈ links.names p ↔ ∃ l ∈ links.links, l.dir = p ∧ l.name.val = s := by
  simp [Links.names, and_assoc]

end Stat

/-- The loop does not get past the link when it looks for the entry. -/
def Link.Stops (l : Link) (e : Entry) : Prop := l.target = none ∨ l.target = some e

/-- No link listed before the name stops the loop when it looks for the entry. -/
def Clear {t : FileTree} (links : Links t) (p : List Name) (listing : List (List UInt8)) (e : Entry)
    (n : Name) : Prop :=
  ∀ l ∈ links.links, l.dir = p → l.name.val ∈ listing.takeWhile (· ≠ n.val) → ¬ l.Stops e

/-- The loops are not stopped for any directory on the way from the root to this one. -/
def Undisturbed {t : FileTree} {links : Links t} (readdir : Listing links) (d : Entry) : Prop :=
  ∀ e ∈ t.entries, e.path <+: d.path → ∀ p n, e.path = p ++ [n] →
    Clear links p (readdir.order p) e n

section Find

variable {t : FileTree} {links : Links t} {d : Entry} {p : List Name} {n : Name}

theorem clear_cons_self (listing : List (List UInt8)) : Clear links p (n.val :: listing) d n := by
  intro l _ _ hbefore
  simp at hbefore

theorem clear_cons_iff {s : List UInt8} (hs : s ≠ n.val) (listing : List (List UInt8)) :
    Clear links p (s :: listing) d n ↔
      (∀ l ∈ links.links, l.dir = p → l.name.val = s → ¬ l.Stops d) ∧
        Clear links p listing d n := by
  have hwhile : (s :: listing).takeWhile (· ≠ n.val) = s :: listing.takeWhile (· ≠ n.val) :=
    List.takeWhile_cons_of_pos (by simpa using hs)
  unfold Clear
  rw [hwhile]
  constructor
  · intro h
    exact ⟨fun l hl hdir hname => h l hl hdir (hname ▸ List.mem_cons_self),
      fun l hl hdir hbefore => h l hl hdir (List.mem_cons_of_mem _ hbefore)⟩
  · rintro ⟨hhead, htail⟩ l hl hdir hbefore
    rcases List.mem_cons.mp hbefore with hname | hbefore
    · exact hhead l hl hdir hname
    · exact htail l hl hdir hbefore

/-- The text that the loop writes when it stops at a name. -/
abbrev longer (s cwd : List UInt8) : List UInt8 := s ++ (if cwd = [] then [] else [slash]) ++ cwd

theorem findName_cons_of_ne {s : List UInt8} {i dirStats : ℕ × ℕ} (hstat : links.stat p s = .ok i)
    (hi : i ≠ dirStats) (cwd : List UInt8) (listing : List (List UInt8)) :
    findName links.stat p dirStats cwd (s :: listing) =
      findName links.stat p dirStats cwd listing := by
  rw [findName, hstat]
  simp only [bind, Except.bind, if_neg hi, ite_self]

theorem findName_cons_of_eq {s : List UInt8} (hs : s ≠ dot ∧ s ≠ dotDot) {dirStats : ℕ × ℕ}
    (hstat : links.stat p s = .ok dirStats) (cwd : List UInt8) (listing : List (List UInt8)) :
    findName links.stat p dirStats cwd (s :: listing) = sprintf (longer s cwd) := by
  rw [findName, if_neg (not_or.mpr hs), hstat]
  simp only [bind, Except.bind, if_true]

theorem findName_cons_of_error {s : List UInt8} (hs : s ≠ dot ∧ s ≠ dotDot) {dirStats : ℕ × ℕ}
    {stop : Stop} (hstat : links.stat p s = .error stop) (cwd : List UInt8)
    (listing : List (List UInt8)) :
    findName links.stat p dirStats cwd (s :: listing) = .error stop := by
  rw [findName, if_neg (not_or.mpr hs), hstat]
  rfl

/-- What the loop over a directory can come to when it looks for the directory `d` of name `n`. -/
inductive Search (links : Links t) (d : Entry) (p : List Name) (n : Name) (cwd : List UInt8)
    (listing : List (List UInt8)) : Prop where
  | found (hclear : Clear links p listing d n)
      (hfind : findName links.stat p d.id cwd listing = sprintf (longer n.val cwd))
  | exited (hclear : ¬ Clear links p listing d n)
      (hfind : findName links.stat p d.id cwd listing = .error .exited)
  | mistaken (m : Name) (hm : m ≠ n) (hclear : ¬ Clear links p listing d n)
      (hfind : findName links.stat p d.id cwd listing = sprintf (longer m.val cwd))

theorem Search.cons {cwd : List UInt8} {listing : List (List UInt8)}
    (h : Search links d p n cwd listing) {s : List UInt8} (hs : s ≠ n.val)
    (hpass : ∀ l ∈ links.links, l.dir = p → l.name.val = s → ¬ l.Stops d)
    (hfind : findName links.stat p d.id cwd (s :: listing) =
      findName links.stat p d.id cwd listing) :
    Search links d p n cwd (s :: listing) := by
  have hclear : Clear links p (s :: listing) d n ↔ Clear links p listing d n := by
    rw [clear_cons_iff hs, and_iff_right hpass]
  cases h with
  | found h hrun => exact .found (hclear.mpr h) (hfind.trans hrun)
  | exited h hrun => exact .exited (mt hclear.mp h) (hfind.trans hrun)
  | mistaken m hm h hrun => exact .mistaken m hm (mt hclear.mp h) (hfind.trans hrun)

theorem Search.cons_link {cwd : List UInt8} {listing : List (List UInt8)}
    (h : Search links d p n cwd listing) (hd : d ∈ t.entries) (hdir : d.isDir) {l : Link}
    (hl : l ∈ links.links) (hp : l.dir = p) (hn : l.name.val ≠ n.val) :
    Search links d p n cwd (l.name.val :: listing) := by
  subst hp
  have hstat := stat_of_link hl
  have hne := links.names_ne l hl
  have hstops : l.Stops d → ¬ Clear links l.dir (l.name.val :: listing) d n := fun h hclear =>
    ((clear_cons_iff hn listing).mp hclear).1 l hl rfl rfl h
  cases htarget : l.target with
  | none =>
      rw [htarget] at hstat
      exact .exited (hstops (Or.inl htarget)) (findName_cons_of_error hne hstat cwd listing)
  | some e =>
      rw [htarget] at hstat
      by_cases he : e = d
      · subst he
        exact .mistaken l.name (fun heq => hn (congrArg Subtype.val heq))
          (hstops (Or.inr htarget)) (findName_cons_of_eq hne hstat cwd listing)
      · have hid : e.id ≠ d.id := fun hid =>
          he (t.dir_id d hd hdir e (links.target_mem l hl e htarget) hid)
        refine h.cons hn ?_ (findName_cons_of_ne hstat hid cwd listing)
        intro k hk hkdir hkname
        rw [eq_of_key hk hl hkdir hkname, Link.Stops, htarget]
        simpa using he

/-- The loop over a directory stops at the directory looked for or at a link listed before. -/
theorem search (hd : d ∈ t.entries) (hdir : d.isDir) (hp : d.path = p ++ [n]) (cwd : List UInt8)
    {listing : List (List UInt8)}
    (hnames : ∀ s ∈ listing, s = dot ∨ s = dotDot ∨ s ∈ t.names p ∨ s ∈ links.names p)
    (hn : n.val ∈ listing) : Search links d p n cwd listing := by
  induction listing with
  | nil => simp at hn
  | cons s listing ih =>
      obtain ⟨hs, hnames⟩ := List.forall_mem_cons.mp hnames
      by_cases heq : s = n.val
      · have hmem : n.val ∈ t.names p := mem_names.mpr ⟨d, hd, n, rfl, hp⟩
        have hstat : links.stat p n.val = .ok d.id := by
          rw [stat_of_not_link (not_link_of_mem_names hmem), stat_of_walk (walk_name hd hp)]
        subst heq
        exact .found (clear_cons_self listing)
          (findName_cons_of_eq (t.names_ne d hd n (by simp [hp])) hstat cwd listing)
      · have ih := ih hnames ((List.mem_cons.mp hn).resolve_left (Ne.symm heq))
        rcases hs with hdot | hdotDot | hs | hs
        · refine ih.cons heq (fun l hl _ hname => ?_) (by rw [findName, if_pos (Or.inl hdot)])
          exact absurd (hname.trans hdot) (links.names_ne l hl).1
        · refine ih.cons heq (fun l hl _ hname => ?_) (by rw [findName, if_pos (Or.inr hdotDot)])
          exact absurd (hname.trans hdotDot) (links.names_ne l hl).2
        · have hnot : ∀ l ∈ links.links, l.dir = p → l.name.val ≠ s := not_link_of_mem_names hs
          obtain ⟨e, he, m, rfl, hm⟩ := mem_names.mp hs
          have hid : e.id ≠ d.id := by
            intro hid
            rw [t.dir_id d hd hdir e he hid, hp] at hm
            obtain rfl := List.singleton_inj.mp (List.append_cancel_left hm)
            exact heq rfl
          refine ih.cons heq (fun l hl hldir hname => absurd hname (hnot l hl hldir)) ?_
          refine findName_cons_of_ne ?_ hid cwd listing
          rw [stat_of_not_link hnot, stat_of_walk (walk_name he hm)]
        · obtain ⟨l, hl, hldir, rfl⟩ := mem_names_iff.mp hs
          exact ih.cons_link hd hdir hl hldir heq

theorem search_listing (readdir : Listing links) {u : Entry} (hu : u ∈ t.entries) (hudir : u.isDir)
    (hd : d ∈ t.entries) (hdir : d.isDir) (hp : d.path = u.path ++ [n]) (cwd : List UInt8) :
    Search links d u.path n cwd (readdir.order u.path) := by
  have hperm := readdir.perm u hu hudir
  refine search hd hdir hp cwd (fun s hs => ?_) (hperm.mem_iff.mpr ?_)
  · simpa using hperm.mem_iff.mp hs
  · have hmem : n.val ∈ t.names u.path := mem_names.mpr ⟨d, hd, n, rfl, hp⟩
    simp [hmem]

end Find

section Climbing

variable {t : FileTree} {links : Links t} {d u : Entry} {n : Name}

theorem undisturbed_root (readdir : Listing links) (h : d.path = []) : Undisturbed readdir d := by
  intro e _ hpre p n hp
  rw [h, List.prefix_nil, hp] at hpre
  simp at hpre

theorem undisturbed_iff_parent (readdir : Listing links) (hd : d ∈ t.entries)
    (hp : d.path = u.path ++ [n]) :
    Undisturbed readdir d ↔
      Clear links u.path (readdir.order u.path) d n ∧ Undisturbed readdir u := by
  unfold Undisturbed
  constructor
  · intro h
    refine ⟨h d hd (List.prefix_refl _) u.path n hp, fun e he hpre => h e he ?_⟩
    exact hpre.trans (hp ▸ List.prefix_append _ _)
  · rintro ⟨hclear, h⟩ e he hpre p m hm
    rw [hp, List.prefix_concat_iff] at hpre
    rcases hpre with hpath | hpre
    · obtain rfl := eq_of_path he hd (hpath.trans hp.symm)
      obtain ⟨rfl, hmn⟩ := List.append_inj' (hm.symm.trans hp) rfl
      rw [List.singleton_inj.mp hmn]
      exact hclear
    · exact h e he hpre p m hm

theorem relativePath_injective : Function.Injective relativePath := by
  intro p q h
  by_cases hp : p = []
  · subst hp
    exact (relativePath_eq_nil_iff.mp h.symm).symm
  · have hq : q ≠ [] := by
      rintro rfl
      exact hp (relativePath_eq_nil_iff.mp h)
    have hsplit : ∀ r : List Name, r ≠ [] → (relativePath r).splitOn slash = r.map Subtype.val := by
      intro r hr
      refine List.splitOn_intercalate slash ?_ (mt List.map_eq_nil_iff.mp hr)
      intro s hs
      obtain ⟨m, _, rfl⟩ := List.mem_map.mp hs
      exact m.property.2.1
    have hmap := congrArg (List.splitOn slash) h
    rw [hsplit p hp, hsplit q hq] at hmap
    exact List.map_injective_iff.mpr Subtype.val_injective hmap

theorem climb_root (readdir : Listing links) (hd : d ∈ t.entries) (h : d.path = []) (fuel : ℕ)
    (cwd : List UInt8) :
    climb t links.stat readdir.order (fuel + 1) d.path d.id cwd =
      sprintf (slash :: cwd) >>= fun cwd => pure ([], cwd) := by
  rw [climb, stat_dotDot, stat_of_walk (walk_dotDot hd (by simp [h])), h]
  simp only [bind, Except.bind, if_true]

theorem climb_up (readdir : Listing links) (hd : d ∈ t.entries) (hu : u ∈ t.entries)
    (hudir : u.isDir) (hp : d.path = u.path ++ [n]) (fuel : ℕ) (cwd : List UInt8) :
    climb t links.stat readdir.order (fuel + 1) d.path d.id cwd =
      findName links.stat u.path d.id cwd (readdir.order u.path) >>=
        climb t links.stat readdir.order fuel u.path u.id := by
  have hwalk := walk_dotDot hu (show d.path.dropLast = u.path by simp [hp])
  have hid : d.id ≠ u.id := by
    intro heq
    have hpaths := congrArg Entry.path (t.dir_id u hu hudir d hd heq)
    simp [hp] at hpaths
  rw [climb, stat_dotDot, stat_of_walk hwalk, chdir_of_walk hwalk hudir]
  simp only [bind, Except.bind, if_neg hid]

theorem sprintf_eq_ok_iff {text r : List UInt8} :
    sprintf text = .ok r ↔ text.length < tmpSize ∧ text = r := by
  unfold sprintf
  by_cases h : tmpSize ≤ text.length
  · simp [h]
  · simp [if_neg h, not_le.mp h]

/-- The path that `mygetcwd` builds is the right one only if no link disturbs it. -/
theorem climb_ok (readdir : Listing links) {fuel : ℕ} (hd : d ∈ t.entries) (hdir : d.isDir)
    (q : List Name) {r : List Name × List UInt8}
    (h : climb t links.stat readdir.order fuel d.path d.id (relativePath q) = .ok r) :
    ∃ p, r = ([], absolutePath (p ++ q)) ∧ (absolutePath (p ++ q)).length < tmpSize ∧
      (p = d.path ↔ Undisturbed readdir d) := by
  induction fuel generalizing d q with
  | zero => exact absurd h (by simp [climb])
  | succ fuel ih =>
      rcases List.eq_nil_or_concat' d.path with hnil | ⟨p, n, hp⟩
      · rw [climb_root readdir hd hnil] at h
        obtain ⟨cwd, hcwd, hr⟩ := bind_eq_ok_iff.mp h
        obtain ⟨hlen, rfl⟩ := sprintf_eq_ok_iff.mp hcwd
        refine ⟨[], (pure_eq_ok_iff.mp hr).symm, hlen, ?_⟩
        rw [hnil]
        exact iff_of_true rfl (undisturbed_root readdir hnil)
      · obtain ⟨u, hu, rfl, hudir⟩ := t.parent_mem d hd p n hp
        rw [climb_up readdir hd hu hudir hp] at h
        obtain ⟨cwd, hcwd, hrest⟩ := bind_eq_ok_iff.mp h
        rw [undisturbed_iff_parent readdir hd hp, hp]
        -- the name in front is the right one exactly if the directory above is clear
        have hname : ∀ m : Name, sprintf (longer m.val (relativePath q)) = .ok cwd →
            ∃ p, r = ([], absolutePath (p ++ [m] ++ q)) ∧
              (absolutePath (p ++ [m] ++ q)).length < tmpSize ∧
              (p = u.path ↔ Undisturbed readdir u) := by
          intro m hm
          rw [longer, ← relativePath_cons] at hm
          rw [← (sprintf_eq_ok_iff.mp hm).2] at hrest
          simpa using ih hu hudir (m :: q) hrest
        cases search_listing readdir hu hudir hd hdir hp (relativePath q) with
        | found hclear hfind =>
            obtain ⟨p, hr, hlen, hp⟩ := hname n (hfind ▸ hcwd)
            exact ⟨p ++ [n], hr, hlen, by simpa [hclear] using hp⟩
        | exited hclear hfind => exact absurd (hfind ▸ hcwd) (by simp)
        | mistaken m hm hclear hfind =>
            obtain ⟨p, hr, hlen, hp⟩ := hname m (hfind ▸ hcwd)
            refine ⟨p ++ [m], hr, hlen, iff_of_false ?_ fun h => hclear h.1⟩
            intro heq
            exact hm (List.singleton_inj.mp (List.append_inj' heq rfl).2)

theorem climb_of_undisturbed (readdir : Listing links) {fuel : ℕ} (hd : d ∈ t.entries)
    (hdir : d.isDir) (q : List Name) (hfuel : d.path.length < fuel)
    (hlen : (absolutePath (d.path ++ q)).length < tmpSize) (h : Undisturbed readdir d) :
    climb t links.stat readdir.order fuel d.path d.id (relativePath q) =
      .ok ([], absolutePath (d.path ++ q)) := by
  induction fuel generalizing d q with
  | zero => omega
  | succ fuel ih =>
      rcases List.eq_nil_or_concat' d.path with hnil | ⟨p, n, hp⟩
      · rw [hnil, List.nil_append, absolutePath] at hlen
        rw [climb_root readdir hd hnil, sprintf_eq hlen, hnil]
        rfl
      · obtain ⟨u, hu, rfl, hudir⟩ := t.parent_mem d hd p n hp
        obtain ⟨hclear, h⟩ := (undisturbed_iff_parent readdir hd hp).mp h
        have hpath : d.path ++ q = u.path ++ (n :: q) := by simp [hp]
        have hshort : (relativePath (n :: q)).length < tmpSize := by
          have hle := length_relativePath_le u.path (n :: q)
          rw [hpath, absolutePath, List.length_cons] at hlen
          omega
        have hfuel' : u.path.length < fuel := by
          rw [hp, List.length_append, List.length_singleton] at hfuel
          omega
        have hfind : findName links.stat u.path d.id (relativePath q) (readdir.order u.path) =
            .ok (relativePath (n :: q)) := by
          cases search_listing readdir hu hudir hd hdir hp (relativePath q) with
          | found _ hfind => rw [hfind, longer, ← relativePath_cons, sprintf_eq hshort]
          | exited hnot => exact absurd hclear hnot
          | mistaken _ _ hnot => exact absurd hclear hnot
        rw [climb_up readdir hd hu hudir hp, hfind]
        rw [hpath] at hlen ⊢
        exact ih hu hudir (n :: q) hfuel' hlen h

end Climbing

section Runs

variable {t : FileTree} {links : Links t} {d : Entry}

theorem mygetcwd_eq (readdir : Listing links) (hd : d ∈ t.entries) (hdir : d.isDir) (fuel : ℕ) :
    mygetcwd readdir fuel d.path =
      climb t links.stat readdir.order fuel d.path d.id (relativePath []) >>=
        fun r => pure (d.path, r.2) := by
  rw [mygetcwd, mygetcwdWith, chdir_of_walk (walk_dot hd) hdir, stat_dot,
    stat_of_walk (walk_dot hd)]
  rfl

theorem mygetcwd_ok (readdir : Listing links) (hd : d ∈ t.entries) (hdir : d.isDir) {fuel : ℕ}
    {r : List Name × List UInt8} (h : mygetcwd readdir fuel d.path = .ok r) :
    ∃ p, r = (d.path, absolutePath p) ∧ (absolutePath p).length < tmpSize ∧
      (p = d.path ↔ Undisturbed readdir d) := by
  rw [mygetcwd_eq readdir hd hdir] at h
  obtain ⟨c, hc, hr⟩ := bind_eq_ok_iff.mp h
  obtain ⟨p, rfl, hlen, hp⟩ := climb_ok readdir hd hdir [] hc
  rw [List.append_nil] at hr hlen
  exact ⟨p, (pure_eq_ok_iff.mp hr).symm, hlen, hp⟩

theorem mygetcwd_of_undisturbed (readdir : Listing links) (hd : d ∈ t.entries) (hdir : d.isDir)
    {fuel : ℕ} (hfuel : d.path.length < fuel) (hlen : (absolutePath d.path).length < tmpSize)
    (h : Undisturbed readdir d) :
    mygetcwd readdir fuel d.path = .ok (d.path, absolutePath d.path) := by
  rw [← List.append_nil d.path] at hlen
  rw [mygetcwd_eq readdir hd hdir, climb_of_undisturbed readdir hd hdir [] hfuel hlen h,
    List.append_nil]
  rfl

theorem undisturbed_noLinks (readdir : GetCwd.Listing t) (d : Entry) :
    Undisturbed (noLinksListing readdir) d := by
  intro e _ _ p n _ l hl
  exact absurd hl List.not_mem_nil

end Runs

/-- With links added to the tree, `mygetcwd` returns what it returned without them exactly if the
path has under 500 bytes and, beside each directory on it, no link that is listed before the
directory leads to it or leads nowhere. -/
theorem mygetcwd_links_iff {t : FileTree} {links : Links t} (readdir : GetCwd.Listing t)
    (readdirLinks : Listing links) {d : Entry} (hd : d ∈ t.entries) (hdir : d.isDir) {fuel : ℕ}
    (hfuel : d.path.length < fuel) :
    (∃ r, GetCwd.mygetcwd readdir fuel d.path = .ok r ∧
        mygetcwd readdirLinks fuel d.path = .ok r) ↔
      (absolutePath d.path).length < tmpSize ∧ Undisturbed readdirLinks d := by
  have hclear := undisturbed_noLinks readdir d
  rw [← mygetcwd_noLinks]
  constructor
  · rintro ⟨r, hplain, hlinks⟩
    obtain ⟨p, rfl, hlen, hp⟩ := mygetcwd_ok (noLinksListing readdir) hd hdir hplain
    obtain rfl := hp.mpr hclear
    obtain ⟨p, heq, _, hp⟩ := mygetcwd_ok readdirLinks hd hdir hlinks
    have hpath : relativePath d.path = relativePath p := by simpa [absolutePath] using heq
    exact ⟨hlen, hp.mp (relativePath_injective hpath).symm⟩
  · rintro ⟨hlen, h⟩
    exact ⟨_, mygetcwd_of_undisturbed _ hd hdir hfuel hlen hclear,
      mygetcwd_of_undisturbed _ hd hdir hfuel hlen h⟩

/-- `/u`. -/
def userDir : Entry := smallEntries.get ⟨2, by decide⟩

/-- The link `/l` beside `/u`. -/
def oneLink (target : Option Entry) (h : ∀ e ∈ target, e ∈ smallTree.entries) :
    Links smallTree where
  links := [⟨[], ⟨[108], by decide⟩, target⟩]
  keys_nodup := List.nodup_singleton _
  dir_mem := by
    simp only [List.forall_mem_singleton]
    exact smallTree.root_mem
  target_mem := by simpa using h
  fresh := by
    simp only [List.forall_mem_singleton]
    decide
  names_ne := by
    simp only [List.forall_mem_singleton]
    decide

def dangling : Links smallTree := oneLink none (by simp)

def toItself : Links smallTree :=
  oneLink (some userDir) (by simp [smallTree, userDir])

def linksFirst {t : FileTree} (links : Links t) : Listing links where
  order p := links.names p ++ (t.names p ++ [dot, dotDot])
  perm d _ _ := by
    refine List.perm_append_comm.trans ?_
    show ((t.names d.path ++ [dot, dotDot]) ++ links.names d.path).Perm
      (([dot, dotDot] ++ t.names d.path) ++ links.names d.path)
    exact List.perm_append_comm.append_right _

def linksLast {t : FileTree} (links : Links t) : Listing links where
  order p := [dot, dotDot] ++ (t.names p ++ links.names p)
  perm _ _ _ := List.Perm.refl _

theorem mygetcwd_links_iff_last :
    ∃ r, GetCwd.mygetcwd (specialLast smallTree) 2 userDir.path = .ok r ∧
      mygetcwd (linksLast dangling) 2 userDir.path = .ok r := by
  have hd : userDir ∈ smallTree.entries := List.get_mem _ _
  refine (mygetcwd_links_iff (specialLast smallTree) (linksLast dangling) hd rfl
    (by decide)).mpr ⟨by decide, ?_⟩
  obtain ⟨root, _, hroot, _⟩ := smallTree.root_mem
  refine (undisturbed_iff_parent _ hd (u := root) (by rw [hroot]; rfl)).mpr
    ⟨?_, undisturbed_root _ hroot⟩
  rw [hroot]
  intro l hl _ hbefore
  obtain rfl := List.mem_singleton.mp hl
  exact absurd hbefore (by decide)

/-- In `/u`, where `/l` is listed before `/u`: a link that leads nowhere ends the program, and a
link to `/u` gives its own name to the path. -/
theorem link_before_directory :
    GetCwd.mygetcwd (specialLast smallTree) 2 userDir.path = .ok (userDir.path, [47, 117]) ∧
      mygetcwd (linksFirst dangling) 2 userDir.path = .error .exited ∧
      mygetcwd (linksFirst toItself) 2 userDir.path = .ok (userDir.path, [47, 108]) :=
  ⟨rfl, rfl, rfl⟩

end TlpiExercises.GetCwdLinks
