import TlpiExercises.KeyedList
import TlpiExercises.ProcessList

/-!
# Reading status files into a static table

`readProcInfo` reads a status file with `fgets` and stores the fields it finds in the
static array `props`, over the fields of the processes before. A line is cut where the
buffer of `fgets` is full. What `sscanf` does not store stays what it was; a field beyond
the array is an access out of range.
-/
namespace TlpiExercises.ProcessTree
open CText
open ProcessList (Field text newline colon tab)

/-- The size of `line`, and of each string of `props`. -/
abbrev lineSize : ℕ := 1000

/-- The number of entries of `props`. -/
abbrev propsCnt : ℕ := 100

/-- The strings in `props`. -/
abbrev Props := ℕ → Field

/-- `props` before anything is read. -/
def Props.zero : Props := fun _ => ⟨[], []⟩

/-- What successive calls of `fgets(line, 1000, f)` store; the call that is going on has
stored `line` so far. -/
def fgetsLines (line : List UInt8) : List UInt8 → List (List UInt8)
  | [] => if line = [] then [] else [line]
  | c :: s =>
      if c = newline ∨ (line ++ [c]).length = lineSize - 1 then (line ++ [c]) :: fgetsLines [] s
      else fgetsLines (line ++ [c]) s

/-- `"%[^:]: %[^\n]"`. -/
def lineFormat : List TextDirective := [.upTo colon, .literal colon, .space, .upTo newline]

/-- The strings `sscanf` stores from a line. -/
def scanned (line : List UInt8) : List (List UInt8) := sscanfText lineFormat (cString line)

/-- An entry of `props` after `sscanf`. -/
def scanLine (old : Field) (line : List UInt8) : Field :=
  match scanned line with
  | [] => old
  | [key] => ⟨key, old.value⟩
  | key :: value :: _ => ⟨key, value⟩

/-- The loop of `readProcInfo`: the number of fields and the table. -/
def storeLines : ℕ → List (List UInt8) → Props → Option (ℕ × Props)
  | cnt, [], props => some (cnt, props)
  | cnt, l :: ls, props =>
      if cnt < propsCnt then storeLines (cnt + 1) ls (Function.update props cnt (scanLine (props cnt) l))
      else none

/-- A status file: it cannot be opened, or it has this content, and an error is reported
for it or not. -/
inductive StatusFile where
  | absent
  | opens (content : List UInt8) (failed : Bool)
  deriving DecidableEq, Repr

/-- `*fieldsCount` if 0 is returned, and the table. -/
def readProcInfo (props : Props) : StatusFile → Option (Option ℕ × Props)
  | .absent => some (none, props)
  | .opens content failed =>
      (storeLines 0 (fgetsLines [] content) props).map fun (cnt, props) =>
        (if failed then none else some cnt, props)

/-- The loop of `getProcFieldValue`, with this many iterations left, from `props[i]` on. -/
def searchProps (field : List UInt8) (props : Props) : ℕ → ℕ → Option (List UInt8)
  | 0, _ => none
  | left + 1, i =>
      if (props i).key = field then some (props i).value else searchProps field props left (i + 1)

def getProcFieldValue (field : List UInt8) (fieldCount : ℕ) (props : Props) : Option (List UInt8) :=
  searchProps field props fieldCount 0

/-- `"PPid"` and `"Name"`. -/
abbrev ppidKey : List UInt8 := [80, 80, 105, 100]
abbrev nameKey : List UInt8 := [78, 97, 109, 101]

/-- A status text: lines `Key:<tab>Value`, among them a `Name` and a `PPid`. -/
structure StatusText where
  lines : List Field
  key_ne : ∀ l ∈ lines, l.key ≠ []
  colon_key : ∀ l ∈ lines, colon ∉ l.key
  newline_line : ∀ l ∈ lines, newline ∉ l.line
  name : nameKey ∈ lines.map Field.key
  ppid : ppidKey ∈ lines.map Field.key

/-- The file with this text. -/
def StatusText.file (t : StatusText) : StatusFile := .opens (text t.lines) false

/-- The value on the line with this key. -/
def StatusText.valueOf (t : StatusText) (key : List UInt8) : List UInt8 :=
  ((KeyedList.lookup Field.key t.lines key).map Field.value).getD []

/-- The table after these processes. -/
def readBefore (before : List StatusText) : Option Props :=
  before.foldlM (fun props t => (readProcInfo props t.file).map Prod.snd) Props.zero

/-- What `getProcFieldValue` finds in the text `t` after these processes. -/
def found (field : List UInt8) (before : List StatusText) (t : StatusText) :
    Option (Option (List UInt8)) :=
  (readBefore before).bind fun props => (readProcInfo props t.file).bind fun (count, props) =>
    count.map fun fieldCount => getProcFieldValue field fieldCount props

/-- The lines that `fgets` stores give `field` this value whatever the table held: before the
first line with this key every line has a key, and that line has the value. -/
def Determined (field value : List UInt8) (ls : List (List UInt8)) : Prop :=
  ∃ before l after, ls = before ++ l :: after ∧ scanned l = [field, value] ∧
    ∀ q ∈ before, ∃ key ∈ (scanned q).head?, key ≠ field

/-- The entries from `cnt` on are those of `props` with these lines stored over them. -/
def StoredOver (props : Props) (cnt : ℕ) (ls : List (List UInt8)) (props' : Props) : Prop :=
  ∀ i l, ls[i]? = some l → props' (cnt + i) = scanLine (props (cnt + i)) l

/-- The loop stores all lines if there is room for them. -/
theorem storeLines_eq (cnt : ℕ) (ls : List (List UInt8)) (props : Props)
    (h : cnt + ls.length ≤ propsCnt) :
    ∃ props', storeLines cnt ls props = some (cnt + ls.length, props') ∧
      (∀ i < cnt, props' i = props i) ∧ StoredOver props cnt ls props' := by
  induction ls generalizing cnt props with
  | nil => exact ⟨props, rfl, fun _ _ => rfl, by simp [StoredOver]⟩
  | cons l ls ih =>
      rw [List.length_cons] at h ⊢
      obtain ⟨props', hrun, hbefore, hstored⟩ := ih (cnt + 1)
        (Function.update props cnt (scanLine (props cnt) l)) (by omega)
      refine ⟨props', ?_, ?_, ?_⟩
      · rw [storeLines, if_pos (by omega), hrun, Nat.add_right_comm, Nat.add_assoc]
      · intro i hi
        rw [hbefore i (by omega), Function.update_of_ne (by omega)]
      · intro i q hq
        cases i with
        | zero =>
            obtain rfl : l = q := by simpa using hq
            rw [Nat.add_zero, hbefore cnt (by omega), Function.update_self]
        | succ i =>
            have hnext := hstored i q (by simpa using hq)
            rw [Function.update_of_ne (by omega)] at hnext
            rw [Nat.add_comm i, ← Nat.add_assoc]
            exact hnext

theorem storeLines_full (cnt : ℕ) (ls : List (List UInt8)) (props : Props) (hcnt : cnt ≤ propsCnt)
    (h : propsCnt < cnt + ls.length) : storeLines cnt ls props = none := by
  induction ls generalizing cnt props with
  | nil =>
      rw [List.length_nil] at h
      omega
  | cons l ls ih =>
      rw [storeLines]
      split_ifs with hlt
      · exact ih (cnt + 1) _ hlt (by rw [List.length_cons] at h; omega)
      · rfl

theorem fgetsLines_length_lt {line s q : List UInt8} (hline : line.length < lineSize - 1)
    (hq : q ∈ fgetsLines line s) : q.length < lineSize := by
  induction s generalizing line with
  | nil =>
      rw [fgetsLines] at hq
      split_ifs at hq with hempty
      · simp at hq
      · obtain rfl := List.mem_singleton.mp hq
        omega
  | cons c s ih =>
      rw [fgetsLines] at hq
      split_ifs at hq with hfull
      · rcases List.mem_cons.mp hq with rfl | hq
        · rw [List.length_append, List.length_singleton]
          omega
        · exact ih (by decide) hq
      · refine ih ?_ hq
        rw [List.length_append, List.length_singleton] at hfull ⊢
        omega

/-- Every string that `sscanf` stores fits its place in `props`. -/
theorem scanned_length_lt {s q w : List UInt8} (hq : q ∈ fgetsLines [] s) (hw : w ∈ scanned q) :
    w.length < lineSize := by
  have hline := fgetsLines_length_lt (by decide) hq
  have hscan := (sublist_of_mem_sscanfText hw).length_le
  have hcut : (cString q).length ≤ q.length := (List.takeWhile_sublist _).length_le
  omega

/-- What `sscanf` stores from a line: two strings, the first only, or nothing. -/
theorem scanned_cases (l : List UInt8) :
    scanned l = [] ∨ (∃ key, scanned l = [key]) ∨ ∃ key value, scanned l = [key, value] := by
  rw [scanned, lineFormat, sscanfText_keyValue (fun _ => rfl)]
  split_ifs
  · exact .inl rfl
  · exact .inr (.inl ⟨_, rfl⟩)
  · exact .inr (.inr ⟨_, _, rfl⟩)

/-- A line with a key gives its entry this key. -/
theorem scanLine_key {l key : List UInt8} (h : key ∈ (scanned l).head?) (old : Field) :
    (scanLine old l).key = key := by
  rcases scanned_cases l with hl | ⟨k, hl⟩ | ⟨k, v, hl⟩
  · simp [hl] at h
  · obtain rfl : k = key := by simpa [hl] using h
    simp [scanLine, hl]
  · obtain rfl : k = key := by simpa [hl] using h
    simp [scanLine, hl]

section Search

variable {field value : List UInt8} {props props' : Props} {cnt : ℕ} {ls : List (List UInt8)}

/-- The search goes past a line that has another key. -/
theorem searchProps_cons {l key : List UInt8} (h : StoredOver props cnt (l :: ls) props')
    (hkey : key ∈ (scanned l).head?) (hne : key ≠ field) (left : ℕ) :
    searchProps field props' (left + 1) cnt = searchProps field props' left (cnt + 1) := by
  have hentry : props' cnt = scanLine (props cnt) l := h 0 l rfl
  rw [searchProps, hentry, scanLine_key hkey, if_neg hne]

theorem StoredOver.tail {l : List UInt8} (h : StoredOver props cnt (l :: ls) props') :
    StoredOver props (cnt + 1) ls props' := by
  intro i q hq
  have hnext := h (i + 1) q (by simpa using hq)
  rwa [Nat.add_comm i, ← Nat.add_assoc] at hnext

/-- The search goes past lines that have other keys. -/
theorem searchProps_append {before rest : List (List UInt8)}
    (h : StoredOver props cnt (before ++ rest) props')
    (hbefore : ∀ q ∈ before, ∃ key ∈ (scanned q).head?, key ≠ field) :
    searchProps field props' (before ++ rest).length cnt =
        searchProps field props' rest.length (cnt + before.length) ∧
      StoredOver props (cnt + before.length) rest props' := by
  induction before generalizing cnt with
  | nil => exact ⟨rfl, h⟩
  | cons q before ih =>
      obtain ⟨⟨key, hkey, hne⟩, hrest⟩ := List.forall_mem_cons.mp hbefore
      obtain ⟨hsearch, hstored⟩ := ih h.tail hrest
      rw [Nat.add_right_comm, Nat.add_assoc] at hsearch hstored
      refine ⟨?_, hstored⟩
      rw [List.cons_append, List.length_cons, searchProps_cons h hkey hne]
      exact hsearch

/-- A search that reaches a line reads its entry. -/
theorem searchProps_entry {before after : List (List UInt8)} {l : List UInt8}
    (h : StoredOver props 0 (before ++ l :: after) props')
    (hbefore : ∀ q ∈ before, ∃ key ∈ (scanned q).head?, key ≠ field)
    (hkey : (scanLine (props before.length) l).key = field) :
    searchProps field props' (before ++ l :: after).length 0 =
      some (scanLine (props before.length) l).value := by
  obtain ⟨hsearch, hstored⟩ := searchProps_append h hbefore
  rw [Nat.zero_add] at hsearch hstored
  have hentry : props' before.length = scanLine (props before.length) l := hstored 0 l rfl
  rw [hsearch, List.length_cons, searchProps, hentry, if_pos hkey]

theorem searchProps_determined (h : StoredOver props 0 ls props') (hdet : Determined field value ls) :
    searchProps field props' ls.length 0 = some value := by
  obtain ⟨before, l, after, rfl, hl, hbefore⟩ := hdet
  have hline : scanLine (props before.length) l = ⟨field, value⟩ := by simp [scanLine, hl]
  rw [searchProps_entry h hbefore (by rw [hline]), hline]

/-- Lines split at the first one that has no key, or has `field` as its key. -/
theorem exists_split (field : List UInt8) (ls : List (List UInt8)) :
    ∃ before rest, ls = before ++ rest ∧ (∀ q ∈ before, ∃ key ∈ (scanned q).head?, key ≠ field) ∧
      ∀ l ∈ rest.head?, ∀ key ∈ (scanned l).head?, key = field := by
  induction ls with
  | nil => exact ⟨[], [], rfl, by simp, by simp⟩
  | cons l ls ih =>
      by_cases hl : ∃ key ∈ (scanned l).head?, key ≠ field
      · obtain ⟨before, rest, rfl, hbefore, hrest⟩ := ih
        exact ⟨l :: before, rest, rfl, List.forall_mem_cons.mpr ⟨hl, hbefore⟩, hrest⟩
      · refine ⟨[], l :: ls, rfl, by simp, ?_⟩
        rintro _ ⟨⟩ key hkey
        by_contra hne
        exact hl ⟨key, hkey, hne⟩

/-- If any entry may have held `field` with another value, the lines have to give it. -/
theorem determined_of_search {R : Props → Prop}
    (hR : ∀ i < propsCnt, ∃ props, R props ∧ ∃ w, w ≠ value ∧ props i = ⟨field, w⟩)
    (hlen : ls.length ≤ propsCnt)
    (hfound : ∀ props, R props → ∃ props', StoredOver props 0 ls props' ∧
      searchProps field props' ls.length 0 = some value) : Determined field value ls := by
  obtain ⟨before, rest, rfl, hbefore, hrest⟩ := exists_split field ls
  cases rest with
  | nil =>
      obtain ⟨props, hprops, -⟩ := hR 0 (by decide)
      obtain ⟨props', hstored, hsearch⟩ := hfound props hprops
      rw [(searchProps_append hstored hbefore).1] at hsearch
      contradiction
  | cons l after =>
      rw [List.length_append, List.length_cons] at hlen
      obtain ⟨props, hprops, w, hw, hentry⟩ := hR before.length (by omega)
      obtain ⟨props', hstored, hsearch⟩ := hfound props hprops
      have hread : (scanLine ⟨field, w⟩ l).key = field → (scanLine ⟨field, w⟩ l).value = value := by
        intro hkey
        rw [← hentry] at hkey ⊢
        rw [searchProps_entry hstored hbefore hkey] at hsearch
        exact Option.some.inj hsearch
      rcases scanned_cases l with hl | ⟨key, hl⟩ | ⟨key, v, hl⟩
      · simp only [scanLine, hl] at hread
        exact absurd (hread trivial) hw
      · obtain rfl := hrest l rfl key (by simp [hl])
        simp only [scanLine, hl] at hread
        exact absurd (hread trivial) hw
      · obtain rfl := hrest l rfl key (by simp [hl])
        simp only [scanLine, hl] at hread
        exact ⟨before, l, after, rfl, by rw [hl, hread trivial], hbefore⟩

end Search

/-- The lines of a text as `fgets` stores them. -/
def StatusText.stored (t : StatusText) : List (List UInt8) := fgetsLines [] (text t.lines)

section Found

variable {t : StatusText} {before : List StatusText} {props props' : Props} {n : ℕ}

theorem readProcInfo_file (h : storeLines 0 t.stored props = some (n, props')) :
    readProcInfo props t.file = some (some n, props') := by
  rw [StatusText.file, readProcInfo, ← StatusText.stored, h]
  rfl

/-- The search in the table after a text that fits. -/
theorem found_eq (hbefore : readBefore before = some props) (hlen : t.stored.length ≤ propsCnt) :
    ∃ props', StoredOver props 0 t.stored props' ∧ ∀ field,
      found field before t = some (searchProps field props' t.stored.length 0) := by
  obtain ⟨props', hrun, -, hstored⟩ := storeLines_eq 0 t.stored props (by omega)
  refine ⟨props', hstored, fun field => ?_⟩
  rw [Nat.zero_add] at hrun
  rw [found, hbefore, Option.bind_some, readProcInfo_file hrun]
  rfl

theorem found_eq_none (hbefore : readBefore before = some props) (hlen : propsCnt < t.stored.length)
    (field : List UInt8) : found field before t = none := by
  have hrun := storeLines_full 0 t.stored props (by decide) (by omega)
  rw [found, hbefore, Option.bind_some, StatusText.file, readProcInfo, ← StatusText.stored, hrun]
  rfl

end Found

/-- A line that is short enough is stored whole. -/
theorem fgetsLines_line {line rest : List UInt8} (hnl : newline ∉ rest)
    (hlen : (line ++ rest).length + 1 < lineSize) (s : List UInt8) :
    fgetsLines line (rest ++ newline :: s) = (line ++ rest ++ [newline]) :: fgetsLines [] s := by
  induction rest generalizing line with
  | nil => simp [fgetsLines]
  | cons c rest ih =>
      obtain ⟨hc, hrest⟩ : newline ≠ c ∧ newline ∉ rest := by simpa using hnl
      have hroom : ¬ (c = newline ∨ (line ++ [c]).length = lineSize - 1) := by
        rintro (heq | hfull)
        · exact hc heq.symm
        · simp only [List.length_append, List.length_cons, List.length_nil] at hlen hfull
          omega
      rw [List.cons_append, fgetsLines, if_neg hroom, ih hrest (by simpa using hlen)]
      simp

theorem fgetsLines_text {lines : List Field}
    (h : ∀ l ∈ lines, newline ∉ l.line ∧ l.line.length + 1 < lineSize) :
    fgetsLines [] (text lines) = lines.map fun l => l.line ++ [newline] := by
  induction lines with
  | nil => rfl
  | cons l lines ih =>
      obtain ⟨hl, hlines⟩ := List.forall_mem_cons.mp h
      rw [ProcessList.text_cons, fgetsLines_line hl.1 (by simpa using hl.2), ih hlines]
      rfl

/-- What is stored from a line of the text. -/
theorem scanned_line {l : Field} (hkey : l.key ≠ []) (hcolon : colon ∉ l.key) (hzero : 0 ∉ l.line) :
    scanned (l.line ++ [newline]) =
      if ProcessList.valueText l [] = [] then [l.key] else [l.key, ProcessList.valueText l []] := by
  have hzero' : 0 ∉ l.line ++ [newline] := by
    rw [List.mem_append, not_or]
    exact ⟨hzero, by decide⟩
  rw [scanned, cString_eq_self hzero', lineFormat, sscanfText_keyValue (fun _ => rfl),
    ProcessList.scanKey_line hcolon, ProcessList.scanValue_line hcolon, if_neg hkey]

/-- A text that leaves `field` with the value `w` in entry `i`. -/
def filler (field other w : List UInt8) (i : ℕ) : List Field :=
  if i = 0 then [⟨field, w⟩, ⟨other, [48]⟩] else List.replicate i ⟨other, [48]⟩ ++ [⟨field, w⟩]

section Filler

variable {field other w : List UInt8} {i : ℕ}

theorem mem_filler {l : Field} (h : l ∈ filler field other w i) :
    l = ⟨field, w⟩ ∨ l = ⟨other, [48]⟩ := by
  rw [filler] at h
  split_ifs at h
  · simpa using h
  · rcases List.mem_append.mp h with h | h
    · exact .inr (List.eq_of_mem_replicate h)
    · exact .inl (List.mem_singleton.mp h)

theorem filler_getElem? : (filler field other w i)[i]? = some ⟨field, w⟩ := by
  rw [filler]
  split_ifs with hi
  · subst hi
    rfl
  · simp

theorem filler_keys : field ∈ (filler field other w i).map Field.key ∧
    other ∈ (filler field other w i).map Field.key := by
  rw [filler]
  split_ifs with hi
  · simp
  · simp [hi]

theorem filler_length_le (hi : i < propsCnt) : (filler field other w i).length ≤ propsCnt := by
  rw [filler]
  split_ifs
  · exact Nat.le_of_ble_eq_true rfl
  · simpa using hi

end Filler

/-- The lines of the filler are short and have a key and a value. -/
theorem filler_line {field other w : List UInt8}
    (hfield : field = ppidKey ∧ other = nameKey ∨ field = nameKey ∧ other = ppidKey)
    (hw : w = [49] ∨ w = [50]) {i : ℕ} :
    ∀ l ∈ filler field other w i, l.key ≠ [] ∧ colon ∉ l.key ∧ newline ∉ l.line ∧
      l.line.length + 1 < lineSize ∧ scanned (l.line ++ [newline]) = [l.key, l.value] := by
  intro l hl
  rcases mem_filler hl with rfl | rfl <;> rcases hfield with ⟨rfl, rfl⟩ | ⟨rfl, rfl⟩ <;>
    rcases hw with rfl | rfl <;> decide

/-- Whatever value is asked for, some processes leave another one in any entry. -/
theorem exists_entry {field other : List UInt8}
    (hfield : field = ppidKey ∧ other = nameKey ∨ field = nameKey ∧ other = ppidKey)
    (value : List UInt8) {i : ℕ} (hi : i < propsCnt) :
    ∃ props, (∃ before, readBefore before = some props) ∧ ∃ w, w ≠ value ∧ props i = ⟨field, w⟩ := by
  obtain ⟨w, hne, hw⟩ : ∃ w, w ≠ value ∧ (w = [49] ∨ w = [50]) := by
    by_cases hvalue : value = [49]
    · exact ⟨[50], by rw [hvalue]; decide, .inr rfl⟩
    · exact ⟨[49], Ne.symm hvalue, .inl rfl⟩
  have hline := filler_line hfield hw (i := i)
  obtain ⟨hmem, hmem'⟩ : field ∈ (filler field other w i).map Field.key ∧
    other ∈ (filler field other w i).map Field.key := filler_keys
  let t : StatusText :=
    { lines := filler field other w i
      key_ne := fun l hl => (hline l hl).1
      colon_key := fun l hl => (hline l hl).2.1
      newline_line := fun l hl => (hline l hl).2.2.1
      name := by rcases hfield with ⟨rfl, rfl⟩ | ⟨rfl, rfl⟩ <;> assumption
      ppid := by rcases hfield with ⟨rfl, rfl⟩ | ⟨rfl, rfl⟩ <;> assumption }
  have hstored : t.stored = (filler field other w i).map fun l => l.line ++ [newline] :=
    fgetsLines_text fun l hl => ⟨(hline l hl).2.2.1, (hline l hl).2.2.2.1⟩
  have hlen : t.stored.length ≤ propsCnt := by
    rw [hstored, List.length_map]
    exact filler_length_le hi
  obtain ⟨props, hrun, -, hover⟩ := storeLines_eq 0 t.stored Props.zero (by omega)
  refine ⟨props, ⟨[t], ?_⟩, w, hne, ?_⟩
  · simp [readBefore, readProcInfo_file hrun]
  · have hentry := hover i ((⟨field, w⟩ : Field).line ++ [newline]) (by
      rw [hstored, List.getElem?_map, filler_getElem?]
      rfl)
    have hscan := (hline ⟨field, w⟩ (List.mem_of_getElem? filler_getElem?)).2.2.2.2
    rw [Nat.zero_add] at hentry
    rw [hentry, scanLine, hscan]

/-- What is found whatever was read before is given by the text. -/
theorem determined_of_found {field other value : List UInt8}
    (hfield : field = ppidKey ∧ other = nameKey ∨ field = nameKey ∧ other = ppidKey)
    {t : StatusText} (hlen : t.stored.length ≤ propsCnt)
    (hown : ∀ before, (readBefore before).isSome → found field before t = some (some value)) :
    Determined field value t.stored := by
  refine determined_of_search (fun i => exists_entry hfield value) hlen ?_
  rintro props ⟨before, hbefore⟩
  obtain ⟨props', hstored, hfound⟩ := found_eq hbefore hlen
  have hsome := hown before (by rw [hbefore]; rfl)
  rw [hfound] at hsome
  exact ⟨props', hstored, Option.some.inj hsome⟩

/-- After any processes, the `PPid` and the `Name` found for a process are those on its own
lines if and only if its text takes at most 100 calls of `fgets` and what these store gives
both keys their values whatever the table held. -/
theorem own_values_iff (t : StatusText) :
    (∀ before, (readBefore before).isSome →
        found ppidKey before t = some (some (t.valueOf ppidKey)) ∧
        found nameKey before t = some (some (t.valueOf nameKey))) ↔
      t.stored.length ≤ propsCnt ∧ Determined ppidKey (t.valueOf ppidKey) t.stored ∧
        Determined nameKey (t.valueOf nameKey) t.stored := by
  constructor
  · intro hown
    have hlen : t.stored.length ≤ propsCnt := by
      by_contra hfull
      have hnone : found ppidKey [] t = none := found_eq_none rfl (Nat.not_le.mp hfull) ppidKey
      rw [(hown [] rfl).1] at hnone
      contradiction
    refine ⟨hlen, ?_, ?_⟩
    · exact determined_of_found (.inl ⟨rfl, rfl⟩) hlen fun before h => (hown before h).1
    · exact determined_of_found (.inr ⟨rfl, rfl⟩) hlen fun before h => (hown before h).2
  · rintro ⟨hlen, hppid, hname⟩ before hsome
    obtain ⟨props, hbefore⟩ := Option.isSome_iff_exists.mp hsome
    obtain ⟨props', hstored, hfound⟩ := found_eq hbefore hlen
    rw [hfound, hfound, searchProps_determined hstored hppid, searchProps_determined hstored hname]
    exact ⟨rfl, rfl⟩

/-- The name `x` of the process before is found for a process with an empty name. -/
theorem name_left_over :
    found nameKey [] ⟨[⟨nameKey, []⟩, ⟨ppidKey, [50]⟩], by decide, by decide, by decide, by decide,
        by decide⟩ = some (some []) ∧
      found nameKey [⟨[⟨nameKey, [120]⟩, ⟨ppidKey, [49]⟩], by decide, by decide, by decide, by decide,
        by decide⟩] ⟨[⟨nameKey, []⟩, ⟨ppidKey, [50]⟩], by decide, by decide, by decide, by decide,
        by decide⟩ = some (some [120]) := by
  decide

section Short

variable {t : StatusText}

theorem StatusText.stored_of_short (hshort : ∀ l ∈ t.lines, l.line.length + 1 < lineSize) :
    t.stored = t.lines.map fun l => l.line ++ [newline] :=
  fgetsLines_text fun l hl => ⟨t.newline_line l hl, hshort l hl⟩

theorem StatusText.scanned_line (hzero : ∀ l ∈ t.lines, 0 ∉ l.line) {l : Field} (hl : l ∈ t.lines) :
    scanned (l.line ++ [newline]) =
      if ProcessList.valueText l [] = [] then [l.key] else [l.key, ProcessList.valueText l []] :=
  ProcessTree.scanned_line (t.key_ne l hl) (t.colon_key l hl) (hzero l hl)

variable (hshort : ∀ l ∈ t.lines, l.line.length + 1 < lineSize)
  (hzero : ∀ l ∈ t.lines, 0 ∉ l.line) (hdistinct : (t.lines.map Field.key).Nodup)
  {l : Field} (hl : l ∈ t.lines)
include hshort hzero hdistinct hl

theorem value_of_determined (h : Determined l.key l.value t.stored) :
    l.value ≠ [] ∧ ∀ c ∈ l.value.head?, isspace c = false := by
  obtain ⟨before, piece, after, hsplit, hpiece, -⟩ := h
  obtain ⟨q, hq, rfl⟩ : ∃ q ∈ t.lines, q.line ++ [newline] = piece := by
    rw [← List.mem_map, ← StatusText.stored_of_short hshort, hsplit]
    simp
  rw [StatusText.scanned_line hzero hq] at hpiece
  split_ifs at hpiece with hempty
  · simp at hpiece
  · obtain ⟨hkey, hvalue⟩ : q.key = l.key ∧ ProcessList.valueText q [] = l.value := by
      simpa using hpiece
    obtain rfl : q = l := List.inj_on_of_nodup_map hdistinct hq hl hkey
    have hhead := ProcessList.valueText_head q []
    rw [hvalue] at hempty hhead
    exact ⟨hempty, hhead⟩

theorem determined_of_value (hne : l.value ≠ [])
    (hhead : ∀ c ∈ l.value.head?, isspace c = false) : Determined l.key l.value t.stored := by
  have hnl : newline ∉ l.value := fun hmem => t.newline_line l hl (by simp [Field.line, hmem])
  have hvalue := ProcessList.valueText_eq_value hnl hne hhead []
  obtain ⟨before, after, hsplit⟩ := List.append_of_mem hl
  refine ⟨before.map fun l => l.line ++ [newline], l.line ++ [newline],
    after.map fun l => l.line ++ [newline], ?_, ?_, ?_⟩
  · rw [StatusText.stored_of_short hshort, hsplit, List.map_append, List.map_cons]
  · rw [StatusText.scanned_line hzero hl, hvalue, if_neg hne]
  · intro piece hpiece
    obtain ⟨q, hq, rfl⟩ := List.mem_map.mp hpiece
    have hmem : q ∈ t.lines := by simp [hsplit, hq]
    refine ⟨q.key, ?_, ?_⟩
    · rw [StatusText.scanned_line hzero hmem]
      split_ifs <;> rfl
    · rw [hsplit, List.map_append, List.map_cons, List.nodup_middle, List.nodup_cons] at hdistinct
      intro heq
      exact hdistinct.1 (heq ▸ List.mem_append_left _ (List.mem_map_of_mem hq))

/-- In a text of short lines with distinct keys and no zeros, a value is given whatever the
table held exactly if it is not empty and does not start with white space. -/
theorem determined_iff_of_short :
    Determined l.key l.value t.stored ↔ l.value ≠ [] ∧ ∀ c ∈ l.value.head?, isspace c = false :=
  ⟨value_of_determined hshort hzero hdistinct hl,
    fun h => determined_of_value hshort hzero hdistinct hl h.1 h.2⟩

end Short

end TlpiExercises.ProcessTree
