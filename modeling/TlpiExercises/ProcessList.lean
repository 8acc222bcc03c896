import TlpiExercises.CText

/-!
# Listing the processes of a user

For each pid found in `/proc` the status file is read in pieces, cut into fields and
searched for the real user id. A process may vanish before its file is opened or while
it is read. The blocks the fields are stored in come from `malloc` and hold what was
left in them; an access outside an array or through a null pointer is undefined.
-/
namespace TlpiExercises.ProcessList
open CText

/-- `'\n'`, `'\t'` and `':'`. -/
abbrev newline : UInt8 := 10
abbrev tab : UInt8 := 9
abbrev colon : UInt8 := 58

/-- The size of `path`. -/
abbrev pathSize : ℕ := 50

/-- The size of `statusFileContent`. -/
abbrev contentSize : ℕ := 10000

/-- The number of entries of `props`, and the sizes of their blocks. -/
abbrev maxFields : ℕ := 100
abbrev keySize : ℕ := 30
abbrev valueSize : ℕ := 400

inductive Errno where
  | enoent
  | esrch
  | other
  deriving DecidableEq, Repr

/-- The bytes one `read` of at most 500 returns. -/
abbrev Chunk := {c : List UInt8 // c ≠ [] ∧ c.length ≤ 500}

/-- The status file of a process: `open` fails, or the reads return these bytes and
then the end of the file or an error. -/
inductive Status where
  | openFails (errno : Errno)
  | opens (reads : List Chunk) (last : Option Errno)

structure Field where
  key : List UInt8
  value : List UInt8
  deriving DecidableEq, Repr

/-- A pid directory: its name, its status file, and what the blocks for its fields
hold before they are written. -/
structure Entry where
  name : List UInt8
  status : Status
  old : ℕ → Field

/-- How `getProcInfo` ends. -/
inductive Info where
  | fields (props : List Field)
  | gone
  | exit
  | undefined

def handleProcIOError (errno : Errno) : Info :=
  if errno = .esrch ∨ errno = .enoent then .gone else .exit

/-- `"/proc/%s/status"`. -/
def statusPath (pid : List UInt8) : List UInt8 :=
  [47, 112, 114, 111, 99, 47] ++ pid ++ [47, 115, 116, 97, 116, 117, 115]

/-- The read loop, from the content so far. -/
def readContent (content : List UInt8) : List Chunk → Option (List UInt8)
  | [] => some content
  | c :: cs =>
      if (content ++ c.val).length ≤ contentSize then readContent (content ++ c.val) cs else none

/-- `"%[^:]: %[^\n]s"`. -/
def statusFormat : List TextDirective := [.upTo colon, .literal colon, .space, .upTo newline,
  .literal 115]

/-- What `sscanf` leaves in the two blocks of a field. -/
def scanField (old : Field) (remaining : List UInt8) : Option Field :=
  match sscanfText statusFormat remaining with
  | [] => some old
  | [key] => if key.length < keySize then some ⟨key, old.value⟩ else none
  | key :: value :: _ =>
      if key.length < keySize ∧ value.length < valueSize then some ⟨key, value⟩ else none

/-- The parse loop, with this many entries of `props` left, from field `n` on. A line
without an end makes `remaining` an invalid pointer. -/
def scanFields (old : ℕ → Field) : ℕ → ℕ → List UInt8 → Option (List Field)
  | _, _, [] => some []
  | 0, _, _ :: _ => none
  | slots + 1, n, c :: s =>
      (scanField (old n) (c :: s)).bind fun field =>
        match (c :: s).dropWhile (· ≠ newline) with
        | [] => none
        | _ :: rest => (scanFields old slots (n + 1) rest).map (field :: ·)

def getProcInfo (e : Entry) : Info :=
  if pathSize ≤ (statusPath e.name).length then .undefined
  else match e.status with
    | .openFails errno => handleProcIOError errno
    | .opens reads last =>
        match readContent [] reads with
        | none => .undefined
        | some content =>
            match last with
            | some errno => handleProcIOError errno
            | none =>
                if contentSize ≤ content.length then .undefined
                else match scanFields e.old maxFields 0 (cString content) with
                  | none => .undefined
                  | some props => .fields props

/-- The value of the first field with this key, or NULL. -/
def getProcFieldValue (field : List UInt8) (props : List Field) : Option (List UInt8) :=
  (props.find? fun f => f.key = field).map Field.value

/-- `"Uid"` and `"Name"`. -/
abbrev uidKey : List UInt8 := [85, 105, 100]
abbrev nameKey : List UInt8 := [78, 97, 109, 101]

/-- `sscanf(value, "%d", &realUid)`: a value without a number leaves `realUid` as it is. -/
def scanUid (value : List UInt8) (realUid : UInt32) : UInt32 :=
  match scanInt value with
  | none => realUid
  | some (x, _) => (Int32.ofInt (clampLong x)).toUInt32

/-- What is printed for a pid: that it is not with us anymore, or its name. -/
inductive Printed where
  | notWithUs (pid : List UInt8)
  | proc (pid : List UInt8) (name : Option (List UInt8))
  deriving DecidableEq, Repr

inductive Stop where
  | exit
  | undefined
  deriving DecidableEq, Repr

/-- The loop of `main` over the stored pids: what it prints, and why it ends early if it
does. `realUid` is never initialised and keeps the value of the iteration before. -/
def mainLoop (userId : UInt32) : List Entry → UInt32 → List Printed × Option Stop
  | [], _ => ([], none)
  | e :: es, realUid =>
      match getProcInfo e with
      | .undefined => ([], some .undefined)
      | .exit => ([], some .exit)
      | .gone =>
          let r := mainLoop userId es realUid
          (.notWithUs e.name :: r.1, r.2)
      | .fields props =>
          match getProcFieldValue uidKey props with
          | none => ([], some .undefined)
          | some value =>
              let realUid := scanUid value realUid
              let r := mainLoop userId es realUid
              if realUid ≠ userId then r
              else (.proc e.name (getProcFieldValue nameKey props) :: r.1, r.2)

/-- The pids listed with a name, in order. -/
def listed (out : List Printed) : List (List UInt8) :=
  out.filterMap fun
    | .proc pid _ => some pid
    | .notWithUs _ => none

/-- A line `Key:<tab>Value` without its end. -/
def Field.line (l : Field) : List UInt8 := l.key ++ colon :: tab :: l.value

/-- The lines of a status text. -/
def text (lines : List Field) : List UInt8 := (lines.map fun l => l.line ++ [newline]).flatten

/-- A line the scan format can take apart and the blocks of a field can hold. -/
structure Field.Ok (l : Field) : Prop where
  key_ne : l.key ≠ []
  colon_key : colon ∉ l.key
  newline_line : newline ∉ l.line
  key_lt : l.key.length < keySize
  line_lt : l.line.length < valueSize

theorem Field.Ok.newline_value {l : Field} (h : l.Ok) : newline ∉ l.value := by
  intro hmem
  refine h.newline_line ?_
  simp [Field.line, hmem]

theorem text_cons (l : Field) (lines : List Field) :
    text (l :: lines) = l.line ++ newline :: text lines := by
  simp [text]

/-- From any place in the text, the next end of a line comes before a block is full. -/
theorem takeWhile_lt {lines : List Field} (h : ∀ l ∈ lines, l.Ok) {t : List UInt8}
    (ht : t <:+ text lines) : (t.takeWhile (· ≠ newline)).length < valueSize := by
  induction lines generalizing t with
  | nil =>
      obtain rfl : t = [] := List.suffix_nil.mp ht
      simp
  | cons l lines ih =>
      rw [text_cons] at ht
      obtain ⟨u, hu⟩ := ht
      have hl := h l (by simp)
      rcases List.append_eq_append_iff.mp hu with ⟨v, hv, rfl⟩ | ⟨v, rfl, hv⟩
      · -- `t` starts inside this line
        have hnot : newline ∉ v := fun hmem => hl.newline_line (hv ▸ List.mem_append_right _ hmem)
        rw [(span_ne hnot _).1]
        have hlen := hl.line_lt
        rw [hv, List.length_append] at hlen
        omega
      · cases v with
        | nil =>
            obtain rfl : newline :: text lines = t := by simpa using hv
            simp
        | cons c v =>
            obtain ⟨-, hv⟩ := List.cons.inj hv
            exact ih (fun l hl => h l (by simp [hl])) ⟨v, hv.symm⟩

/-- The text after the colon of a line that a field gets as its value; where the line
has no value this is text of a later line. -/
def valueText (l : Field) (rest : List UInt8) : List UInt8 :=
  ((tab :: (l.value ++ newline :: rest)).dropWhile isspace).takeWhile (· ≠ newline)

/-- What a field holds after the scan: nothing new without a key, no new value without one. -/
theorem scanField_eq (old : Field) (remaining : List UInt8) :
    scanField old remaining =
      if scanKey colon remaining = [] then some old
      else if (scanKey colon remaining).length < keySize ∧
          (scanValue colon newline remaining).length < valueSize then
        some ⟨scanKey colon remaining, if scanValue colon newline remaining = [] then old.value
          else scanValue colon newline remaining⟩
      else none := by
  rw [scanField, statusFormat, sscanfText_keyValue (sscanfText_literal 115)]
  by_cases hkey : scanKey colon remaining = []
  · simp only [if_pos hkey]
  · by_cases hvalue : scanValue colon newline remaining = []
    · simp [hkey, hvalue]
    · simp only [if_neg hkey, if_neg hvalue]

theorem scanKey_line {l : Field} (h : colon ∉ l.key) (rest : List UInt8) :
    scanKey colon (l.line ++ newline :: rest) = l.key := by
  have hsplit : l.line ++ newline :: rest =
      l.key ++ colon :: (tab :: (l.value ++ newline :: rest)) := by
    simp [Field.line]
  rw [scanKey, hsplit, (span_ne h _).1]

theorem scanValue_line {l : Field} (h : colon ∉ l.key) (rest : List UInt8) :
    scanValue colon newline (l.line ++ newline :: rest) = valueText l rest := by
  have hsplit : l.line ++ newline :: rest =
      l.key ++ colon :: (tab :: (l.value ++ newline :: rest)) := by
    simp [Field.line]
  rw [scanValue, hsplit, (span_ne h _).2]
  rfl

/-- A value that is not all white space is stored from its first other character on. -/
theorem valueText_eq {l : Field} (hl : newline ∉ l.value) {ws v : List UInt8} {c : UInt8}
    (hvalue : l.value = ws ++ c :: v) (hws : ∀ b ∈ ws, isspace b) (hc : isspace c = false)
    (rest : List UInt8) : valueText l rest = c :: v := by
  have hnot : newline ∉ c :: v := by
    intro hmem
    rw [hvalue] at hl
    exact hl (List.mem_append_right ws hmem)
  have hspaces : ∀ b ∈ tab :: ws, isspace b := by
    intro b hb
    rcases List.mem_cons.mp hb with rfl | hb
    · decide
    · exact hws b hb
  have hdrop : (tab :: (l.value ++ newline :: rest)).dropWhile isspace = c :: v ++ newline :: rest := by
    rw [hvalue, List.append_assoc, ← List.cons_append, List.dropWhile_append_of_pos hspaces]
    simp [hc]
  rw [valueText, hdrop, (span_ne hnot rest).1]

theorem valueText_eq_value {l : Field} (hl : newline ∉ l.value) (hne : l.value ≠ [])
    (hhead : ∀ c ∈ l.value.head?, isspace c = false) (rest : List UInt8) :
    valueText l rest = l.value := by
  obtain ⟨c, v, hvalue⟩ := List.exists_cons_of_ne_nil hne
  have hsplit : l.value = [] ++ c :: v := hvalue
  rw [valueText_eq hl hsplit (by simp) (hhead c (by simp [hvalue])), hvalue]

/-- A value never starts with white space. -/
theorem valueText_head (l : Field) (rest : List UInt8) :
    ∀ c ∈ (valueText l rest).head?, isspace c = false := by
  intro c hc
  rw [valueText] at hc
  cases hdrop : (tab :: (l.value ++ newline :: rest)).dropWhile isspace with
  | nil => simp [hdrop] at hc
  | cons d s =>
      have hne : (tab :: (l.value ++ newline :: rest)).dropWhile isspace ≠ [] := by simp [hdrop]
      have hspace := List.head_dropWhile_not isspace hne
      simp only [hdrop, List.head_cons] at hspace
      rw [hdrop, List.takeWhile_cons] at hc
      split_ifs at hc
      · obtain rfl : d = c := by simpa using hc
        exact hspace
      · contradiction

/-- The field stored for a line: its key, and its value without leading white space if
it has one. -/
def Stores (l f : Field) : Prop :=
  f.key = l.key ∧ ∀ ws c v, l.value = ws ++ c :: v → (∀ b ∈ ws, isspace b) → isspace c = false →
    f.value = c :: v

theorem scanField_line {l : Field} {lines : List Field} (h : ∀ k ∈ l :: lines, k.Ok) (old : Field) :
    ∃ f, scanField old (text (l :: lines)) = some f ∧ Stores l f := by
  have hl := h l (by simp)
  have hlen : (valueText l (text lines)).length < valueSize := by
    refine takeWhile_lt h ((List.dropWhile_suffix _).trans ?_)
    rw [text_cons]
    exact ⟨l.key ++ [colon], by simp [Field.line]⟩
  rw [text_cons, scanField_eq, scanKey_line hl.colon_key, scanValue_line hl.colon_key,
    if_neg hl.key_ne, if_pos ⟨hl.key_lt, hlen⟩]
  refine ⟨_, rfl, rfl, ?_⟩
  intro ws c v hvalue hws hc
  simp [valueText_eq hl.newline_value hvalue hws hc]

theorem scanFields_nil (old : ℕ → Field) (slots n : ℕ) : scanFields old slots n [] = some [] := by
  cases slots <;> rfl

/-- One iteration of the parse loop, on a line and what comes after it. -/
theorem scanFields_line (old : ℕ → Field) (slots n : ℕ) {l : List UInt8} (hl : newline ∉ l)
    (rest : List UInt8) :
    scanFields old (slots + 1) n (l ++ newline :: rest) =
      (scanField (old n) (l ++ newline :: rest)).bind fun field =>
        (scanFields old slots (n + 1) rest).map (field :: ·) := by
  have hdrop := (span_ne hl rest).2
  obtain ⟨c, s, hcs⟩ : ∃ c s, l ++ newline :: rest = c :: s := List.exists_cons_of_ne_nil (by simp)
  rw [hcs] at hdrop ⊢
  simp only [scanFields, hdrop]

/-- The parse loop stores a field for each line. -/
theorem scanFields_text {lines : List Field} (h : ∀ l ∈ lines, l.Ok) (old : ℕ → Field)
    {slots : ℕ} (n : ℕ) (hslots : lines.length ≤ slots) :
    ∃ fs, scanFields old slots n (text lines) = some fs ∧ List.Forall₂ Stores lines fs := by
  induction lines generalizing slots n with
  | nil => exact ⟨[], scanFields_nil old slots n, .nil⟩
  | cons l lines ih =>
      obtain ⟨slots, rfl⟩ := Nat.exists_eq_succ_of_ne_zero (by simp at hslots; omega : slots ≠ 0)
      obtain ⟨f, hf, hstores⟩ := scanField_line h (old n)
      obtain ⟨hl, hlines⟩ := List.forall_mem_cons.mp h
      obtain ⟨fs, hfs, hall⟩ := ih hlines (n + 1) (by simpa using hslots)
      refine ⟨f :: fs, ?_, .cons hstores hall⟩
      rw [text_cons] at hf ⊢
      rw [scanFields_line old slots n hl.newline_line, hf, Option.bind_some, hfs, Option.map_some]

/-- The field found for a key is that of its line. -/
theorem getProcFieldValue_stores {lines fs : List Field} (h : List.Forall₂ Stores lines fs)
    (hdistinct : (lines.map Field.key).Nodup) {l : Field} (hl : l ∈ lines) :
    ∃ f, Stores l f ∧ getProcFieldValue l.key fs = some f.value := by
  induction h with
  | nil => contradiction
  | @cons k f lines fs hkf hall ih =>
      obtain ⟨hk, hdistinct⟩ := List.nodup_cons.mp hdistinct
      rcases List.mem_cons.mp hl with rfl | hl
      · exact ⟨f, hkf, by simp [getProcFieldValue, hkf.1]⟩
      · obtain ⟨g, hg, hvalue⟩ := ih hdistinct hl
        refine ⟨g, hg, ?_⟩
        have hne : f.key ≠ l.key := by
          rw [hkf.1]
          exact fun heq => hk (heq ▸ List.mem_map_of_mem hl)
        rw [getProcFieldValue, List.find?_cons_of_neg (by simpa using hne)]
        exact hvalue

/-- All the bytes the reads return. -/
def content (reads : List Chunk) : List UInt8 := (reads.map Subtype.val).flatten

theorem readContent_append {start : List UInt8} (hstart : start.length ≤ contentSize)
    (reads : List Chunk) :
    readContent start reads =
      if (start ++ content reads).length ≤ contentSize then some (start ++ content reads)
      else none := by
  induction reads generalizing start with
  | nil => simp only [readContent, content, List.map_nil, List.flatten_nil, List.append_nil, if_pos hstart]
  | cons c reads ih =>
      have hassoc : start ++ content (c :: reads) = start ++ c.val ++ content reads := by
        simp [content]
      rw [hassoc, readContent]
      split_ifs with hfits hall hall
      · rw [ih hfits, if_pos hall]
      · rw [ih hfits, if_neg hall]
      · rw [List.length_append] at hall
        omega
      · rfl

/-- The pieces of a file that fits are put together in order. -/
theorem readContent_eq (reads : List Chunk) :
    readContent [] reads =
      if (content reads).length ≤ contentSize then some (content reads) else none :=
  readContent_append (List.length_nil.trans_le (Nat.zero_le contentSize)) reads

/-- How `getProcInfo` ends when the file is read to its end. -/
theorem getProcInfo_opens (name : List UInt8) (reads : List Chunk) (old : ℕ → Field) :
    getProcInfo ⟨name, .opens reads none, old⟩ =
      if (statusPath name).length < pathSize ∧ (content reads).length < contentSize then
        match scanFields old maxFields 0 (cString (content reads)) with
        | none => .undefined
        | some props => .fields props
      else .undefined := by
  have hread := readContent_eq reads
  rw [getProcInfo]
  by_cases hpath : pathSize ≤ (statusPath name).length
  · rw [if_pos hpath, if_neg (by omega)]
  · rw [if_neg hpath]
    by_cases hlen : (content reads).length < contentSize
    · rw [if_pos hlen.le] at hread
      simp only [hread, if_neg (Nat.not_le.mpr hlen)]
      rw [if_pos ⟨by omega, hlen⟩]
    · have hnot : ¬ ((statusPath name).length < pathSize ∧ (content reads).length < contentSize) :=
        fun hfits => hlen hfits.2
      rw [if_neg hnot]
      split_ifs at hread
      · simp only [hread, if_pos (Nat.not_lt.mp hlen)]
      · simp only [hread]

end TlpiExercises.ProcessList
