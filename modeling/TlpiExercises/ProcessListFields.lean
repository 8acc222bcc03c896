import TlpiExercises.KeyedList
import TlpiExercises.ProcessList

/-!
# What the parse loop makes of a status text

Every field is scanned from all that is left of the file: its key reaches to the next
colon and its value, after any white space, to the end of the line it is found on, which
need not be the line the scan started at. The loop then goes on behind the next newline.
-/
namespace TlpiExercises.ProcessList
open CText

/-- Lines with their ends. -/
def joinLines (lines : List (List UInt8)) : List UInt8 :=
  (lines.map fun l => l ++ [newline]).flatten

theorem joinLines_cons (l : List UInt8) (lines : List (List UInt8)) :
    joinLines (l :: lines) = l ++ newline :: joinLines lines := by
  simp [joinLines]

/-- What a field gets from this place of the text fits its blocks. -/
def FieldFits (remaining : List UInt8) : Prop :=
  scanKey colon remaining ≠ [] → (scanKey colon remaining).length < keySize ∧
    (scanValue colon newline remaining).length < valueSize

theorem scanField_isSome_iff (old : Field) (remaining : List UInt8) :
    (scanField old remaining).isSome ↔ FieldFits remaining := by
  rw [scanField_eq, FieldFits]
  by_cases hkey : scanKey colon remaining = []
  · simp [hkey]
  · rw [if_neg hkey, Option.isSome_ite]
    simp [hkey]

/-- The text is at most `slots` lines, each with its end, and from the start of each of them
a field fits. -/
def Scannable (slots : ℕ) (s : List UInt8) : Prop :=
  ∃ lines, s = joinLines lines ∧ (∀ l ∈ lines, newline ∉ l) ∧ lines.length ≤ slots ∧
    ∀ rest, rest ≠ [] → rest <:+ lines → FieldFits (joinLines rest)

/-- Without a further newline the loop leaves the text. -/
theorem scanFields_unterminated (old : ℕ → Field) (slots n : ℕ) {s : List UInt8} (hs : s ≠ [])
    (hnl : newline ∉ s) : scanFields old slots n s = none := by
  obtain ⟨c, s, rfl⟩ := List.exists_cons_of_ne_nil hs
  have hdrop : (c :: s).dropWhile (· ≠ newline) = [] := by
    rw [List.dropWhile_eq_nil_iff]
    intro b hb
    exact decide_eq_true fun heq => hnl (heq ▸ hb)
  cases slots with
  | zero => rfl
  | succ slots =>
      simp only [scanFields, hdrop]
      cases scanField (old n) (c :: s) <;> rfl

theorem scannable_nil (slots : ℕ) : Scannable slots [] := by
  refine ⟨[], rfl, by simp, by simp, ?_⟩
  intro rest hne hsuffix
  exact absurd (List.suffix_nil.mp hsuffix) hne

theorem Scannable.cons {slots : ℕ} {l rest : List UInt8} (h : Scannable slots rest)
    (hl : newline ∉ l) (hfits : FieldFits (l ++ newline :: rest)) :
    Scannable (slots + 1) (l ++ newline :: rest) := by
  obtain ⟨lines, rfl, hlines, hlen, hrest⟩ := h
  refine ⟨l :: lines, (joinLines_cons l lines).symm, ?_, ?_, ?_⟩
  · exact List.forall_mem_cons.mpr ⟨hl, hlines⟩
  · rw [List.length_cons]
    omega
  · intro rest hne hsuffix
    rcases List.suffix_cons_iff.mp hsuffix with rfl | hsuffix
    · rwa [joinLines_cons]
    · exact hrest rest hne hsuffix

/-- A text that the parse loop gets through is one of at most `slots` lines. -/
theorem scannable_of_isSome {old : ℕ → Field} {slots n : ℕ} {s : List UInt8}
    (h : (scanFields old slots n s).isSome) : Scannable slots s := by
  induction slots generalizing n s with
  | zero =>
      cases s with
      | nil => exact scannable_nil 0
      | cons c s => contradiction
  | succ slots ih =>
      by_cases hs : s = []
      · exact hs ▸ scannable_nil _
      · by_cases hnl : newline ∈ s
        · obtain ⟨l, rest, rfl, hl⟩ := List.eq_append_cons_of_mem hnl
          rw [scanFields_line old slots n hl] at h
          cases hfield : scanField (old n) (l ++ newline :: rest) with
          | none =>
              rw [hfield] at h
              contradiction
          | some field =>
              have hfits := (scanField_isSome_iff (old n) _).mp (by rw [hfield]; rfl)
              rw [hfield, Option.bind_some, Option.isSome_map] at h
              exact (ih h).cons hl hfits
        · rw [scanFields_unterminated old _ n hs hnl] at h
          contradiction

/-- The parse loop gets through such a text. -/
theorem Scannable.isSome {slots : ℕ} {s : List UInt8} (h : Scannable slots s) (old : ℕ → Field)
    (n : ℕ) : (scanFields old slots n s).isSome := by
  obtain ⟨lines, rfl, hlines, hlen, hfits⟩ := h
  induction lines generalizing slots n with
  | nil => exact Option.isSome_iff_exists.mpr ⟨[], scanFields_nil old slots n⟩
  | cons l lines ih =>
      obtain ⟨slots, rfl⟩ := Nat.exists_eq_succ_of_ne_zero (by simp at hlen; omega : slots ≠ 0)
      obtain ⟨hl, hlines⟩ := List.forall_mem_cons.mp hlines
      have hfield := hfits (l :: lines) (by simp) List.suffix_rfl
      have hrest := ih (n + 1) hlines (by simpa using hlen)
        (fun rest hne hsuffix => hfits rest hne (hsuffix.trans (List.suffix_cons l lines)))
      rw [← scanField_isSome_iff (old n), Option.isSome_iff_exists] at hfield
      obtain ⟨field, hfield⟩ := hfield
      rw [joinLines_cons] at hfield ⊢
      rw [scanFields_line old slots n hl, hfield, Option.bind_some, Option.isSome_map]
      exact hrest

/-- The parse loop stays in range exactly on such texts. -/
theorem scanFields_isSome_iff (old : ℕ → Field) (slots n : ℕ) (s : List UInt8) :
    (scanFields old slots n s).isSome ↔ Scannable slots s :=
  ⟨scannable_of_isSome, fun h => h.isSome old n⟩

/-- Everything `getProcInfo` does with a file stays in range, and the parse loop ends, if and
only if the path fits its array, the content and its terminating zero fit theirs, and the
text is at most 100 lines, each with its end and with a key and a value that fit. -/
theorem parse_in_range_iff (name : List UInt8) (reads : List Chunk) (old : ℕ → Field) :
    (∃ props, getProcInfo ⟨name, .opens reads none, old⟩ = .fields props) ↔
      (statusPath name).length < pathSize ∧ (content reads).length < contentSize ∧
        Scannable maxFields (cString (content reads)) := by
  rw [getProcInfo_opens, ← scanFields_isSome_iff old maxFields 0, ← and_assoc]
  by_cases hfits : (statusPath name).length < pathSize ∧ (content reads).length < contentSize
  · rw [if_pos hfits, and_iff_right hfits]
    cases scanFields old maxFields 0 (cString (content reads)) <;> simp
  · rw [if_neg hfits]
    simp [hfits]

/-- A last line without its end. -/
theorem unterminated_line_outOfRange :
    getProcInfo ⟨[49], .opens [⟨[65, 58, 9, 98], by decide⟩] none, fun _ => ⟨[], []⟩⟩ = .undefined :=
  rfl

/-- A line whose key has no colon and whose value, if there is one, does not start with white
space; both fit their blocks. -/
structure Field.Plain (l : Field) : Prop where
  key_ne : l.key ≠ []
  colon_key : colon ∉ l.key
  newline_key : newline ∉ l.key
  newline_value : newline ∉ l.value
  value_head : ∀ c ∈ l.value.head?, isspace c = false
  key_lt : l.key.length < keySize
  value_lt : l.value.length < valueSize

/-- A status text of such lines with distinct keys, within the limits of the arrays. -/
structure PlainText where
  lines : List Field
  plain : ∀ l ∈ lines, l.Plain
  distinct : (lines.map Field.key).Nodup
  lines_lt : lines.length < maxFields
  text_lt : (text lines).length < 9500

theorem Field.Plain.newline_line {l : Field} (h : l.Plain) : newline ∉ l.line := by
  simp only [Field.line, List.mem_append, List.mem_cons, not_or]
  exact ⟨h.newline_key, by decide, by decide, h.newline_value⟩

/-- A line without a value takes it from the text behind it, if there is any. -/
theorem valueText_ne_nil (l : Field) {rest : List UInt8} {c : UInt8} (hc : c ∈ rest)
    (hspace : isspace c = false) : valueText l rest ≠ [] := by
  have hne : (tab :: (l.value ++ newline :: rest)).dropWhile isspace ≠ [] := by
    intro hnil
    have hall := List.dropWhile_eq_nil_iff.mp hnil c (by simp [hc])
    rw [hspace] at hall
    contradiction
  have hhead := List.head_dropWhile_not isspace hne
  rw [valueText]
  obtain ⟨d, s, hds⟩ := List.exists_cons_of_ne_nil hne
  simp only [hds, List.head_cons] at hhead ⊢
  have hd : d ≠ newline := by
    rintro rfl
    contradiction
  simp [hd]

/-- An empty value stands only on the last line, and only if the block it is read back from
is empty. The field of the first line is number `n`. -/
def ValuesKept (old : ℕ → Field) (n : ℕ) (lines : List Field) : Prop :=
  ∀ before l after, lines = before ++ l :: after → l.value = [] →
    after = [] ∧ (old (n + before.length)).value = []

theorem valuesKept_nil (old : ℕ → Field) (n : ℕ) : ValuesKept old n [] := by
  simp [ValuesKept]

theorem valuesKept_cons {old : ℕ → Field} {n : ℕ} {l : Field} {lines : List Field} :
    ValuesKept old n (l :: lines) ↔
      (l.value = [] → lines = [] ∧ (old n).value = []) ∧ ValuesKept old (n + 1) lines := by
  constructor
  · intro h
    refine ⟨h [] l lines rfl, ?_⟩
    rintro before l' after rfl hempty
    have hkept := h (l :: before) l' after rfl hempty
    rwa [List.length_cons, Nat.add_comm before.length, ← Nat.add_assoc] at hkept
  · rintro ⟨hhead, hrest⟩ before l' after heq hempty
    cases before with
    | nil =>
        obtain ⟨rfl, rfl⟩ := List.cons.inj heq
        exact hhead hempty
    | cons b before =>
        obtain ⟨-, heq⟩ := List.cons.inj heq
        have hkept := hrest before l' after heq hempty
        rwa [Nat.add_assoc, Nat.add_comm 1] at hkept

/-- The loop stores the lines themselves exactly if their values are kept. -/
theorem scanFields_eq_lines_iff {lines : List Field} (h : ∀ l ∈ lines, l.Plain) (old : ℕ → Field)
    {slots : ℕ} (n : ℕ) (hslots : lines.length ≤ slots) :
    scanFields old slots n (text lines) = some lines ↔ ValuesKept old n lines := by
  induction lines generalizing slots n with
  | nil => exact iff_of_true (scanFields_nil old slots n) (valuesKept_nil old n)
  | cons l lines ih =>
      obtain ⟨slots, rfl⟩ := Nat.exists_eq_succ_of_ne_zero (by simp at hslots; omega : slots ≠ 0)
      obtain ⟨hl, hlines⟩ := List.forall_mem_cons.mp h
      have hrec := ih hlines (n + 1) (by simpa using hslots)
      rw [text_cons, scanFields_line old slots n hl.newline_line, scanField_eq,
        scanKey_line hl.colon_key, scanValue_line hl.colon_key, if_neg hl.key_ne, valuesKept_cons]
      by_cases hvalue : l.value = []
      · cases lines with
        | nil =>
            have hnil : valueText l (text []) = [] := by
              rw [valueText, hvalue]
              rfl
            have hfield : (⟨l.key, (old n).value⟩ : Field) = l ↔ (old n).value = [] := by
              rw [← hvalue, Field.mk.injEq, and_iff_right rfl]
            rw [hnil, if_pos ⟨hl.key_lt, by decide⟩, if_pos rfl, Option.bind_some, ← hrec]
            simp [text, scanFields_nil, hvalue, hfield]
        | cons l' lines =>
            -- the value comes from a later line, and is not empty
            have hne : valueText l (text (l' :: lines)) ≠ [] :=
              valueText_ne_nil l (c := colon) (by simp [text_cons, Field.line]) (by decide)
            refine iff_of_false ?_ (fun hkept => by simp [hvalue] at hkept)
            intro hrun
            obtain ⟨field, hfield, hrest⟩ := Option.bind_eq_some_iff.mp hrun
            obtain ⟨-, ⟨⟩⟩ := Option.ite_none_right_eq_some.mp hfield
            obtain ⟨fs, -, hfs⟩ := Option.map_eq_some_iff.mp hrest
            rw [if_neg hne] at hfs
            exact hne ((congrArg Field.value (List.cons.inj hfs).1).trans hvalue)
      · rw [valueText_eq_value hl.newline_value hvalue hl.value_head, if_pos ⟨hl.key_lt, hl.value_lt⟩, if_neg hvalue,
          Option.bind_some, and_iff_right (fun hempty => absurd hempty hvalue), ← hrec]
        simp

/-- Every field the loop stores takes one line. -/
theorem scanFields_length {old : ℕ → Field} {slots n : ℕ} {s : List UInt8} {fs : List Field}
    (h : scanFields old slots n s = some fs) : fs.length = s.count newline := by
  induction slots generalizing n s fs with
  | zero =>
      cases s with
      | nil =>
          obtain rfl := Option.some.inj h
          rfl
      | cons c s => contradiction
  | succ slots ih =>
      by_cases hs : s = []
      · subst hs
        obtain rfl := Option.some.inj h
        rfl
      · by_cases hnl : newline ∈ s
        · obtain ⟨l, rest, rfl, hl⟩ := List.eq_append_cons_of_mem hnl
          rw [scanFields_line old slots n hl] at h
          obtain ⟨field, -, hrest⟩ := Option.bind_eq_some_iff.mp h
          obtain ⟨fs', hfs', rfl⟩ := Option.map_eq_some_iff.mp hrest
          rw [List.length_cons, ih hfs', List.count_append, List.count_eq_zero.mpr hl,
            List.count_cons_self, Nat.zero_add]
        · rw [scanFields_unterminated old _ n hs hnl] at h
          contradiction

theorem count_newline_text {lines : List Field} (h : ∀ l ∈ lines, l.Plain) :
    (text lines).count newline = lines.length := by
  induction lines with
  | nil => rfl
  | cons l lines ih =>
      obtain ⟨hl, hlines⟩ := List.forall_mem_cons.mp h
      rw [text_cons, List.count_append, List.count_eq_zero.mpr hl.newline_line,
        List.count_cons_self, ih hlines, List.length_cons, Nat.zero_add]

theorem text_getLast (lines : List Field) : ∀ c ∈ (text lines).getLast?, c = newline := by
  induction lines with
  | nil => simp [text]
  | cons l lines ih =>
      intro c hc
      rw [text_cons, List.getLast?_append_cons] at hc
      cases htext : text lines with
      | nil => simpa [htext, eq_comm] using hc
      | cons b s =>
          rw [htext, List.getLast?_cons_cons] at hc
          exact ih c (htext ▸ hc)

/-- What a zero cuts off a text takes its last newline with it. -/
theorem count_cString_text_lt {lines : List Field} (hzero : 0 ∈ text lines) :
    (cString (text lines)).count newline < (text lines).count newline := by
  obtain ⟨cut, hcut⟩ : ∃ cut, cut = (text lines).dropWhile (· ≠ 0) := ⟨_, rfl⟩
  have hsplit : text lines = cString (text lines) ++ cut := by
    rw [hcut, cString, List.takeWhile_append_dropWhile]
  have hne : cut ≠ [] := by
    intro hnil
    rw [hcut, List.dropWhile_eq_nil_iff] at hnil
    simpa using hnil 0 hzero
  have hlast : cut.getLast hne = newline := by
    refine text_getLast lines _ ?_
    rw [hsplit, List.getLast?_append_of_ne_nil _ hne, List.getLast?_eq_some_getLast hne]
    rfl
  have hpos : 0 < cut.count newline := List.count_pos_iff.mpr (hlast ▸ List.getLast_mem hne)
  have hcount := congrArg (List.count newline) hsplit
  rw [List.count_append] at hcount
  omega

/-- The parse loop gives the lines exactly if it sees all of them and keeps their values. -/
theorem PlainText.scanFields_iff (t : PlainText) (old : ℕ → Field) :
    scanFields old maxFields 0 (cString (text t.lines)) = some t.lines ↔
      0 ∉ text t.lines ∧ ValuesKept old 0 t.lines := by
  have hkept := scanFields_eq_lines_iff t.plain old 0 t.lines_lt.le
  constructor
  · intro hscan
    have hzero : 0 ∉ text t.lines := by
      intro hmem
      have hlen := scanFields_length hscan
      have hlt := count_cString_text_lt hmem
      rw [count_newline_text t.plain] at hlt
      omega
    rw [cString_eq_self hzero, hkept] at hscan
    exact ⟨hzero, hscan⟩
  · rintro ⟨hzero, hvalues⟩
    rw [cString_eq_self hzero, hkept]
    exact hvalues

theorem getProcFieldValue_eq (key : List UInt8) (props : List Field) :
    getProcFieldValue key props = (KeyedList.lookup Field.key props key).map Field.value := rfl

/-- `getProcInfo` returns exactly the lines of the file and `getProcFieldValue` the value of
each, if and only if no zero is among the bytes and the values are kept. -/
theorem fields_are_lines_iff (t : PlainText) (name : List UInt8) (hname : name.length ≤ 10)
    (reads : List Chunk) (hreads : content reads = text t.lines) (old : ℕ → Field) :
    (∃ props, getProcInfo ⟨name, .opens reads none, old⟩ = .fields props ∧ props = t.lines ∧
        (∀ l ∈ t.lines, getProcFieldValue l.key props = some l.value) ∧
        ∀ key, key ∉ t.lines.map Field.key → getProcFieldValue key props = none) ↔
      0 ∉ text t.lines ∧ ValuesKept old 0 t.lines := by
  have hfits : (statusPath name).length < pathSize ∧ (content reads).length < contentSize := by
    have hlt := t.text_lt
    rw [hreads]
    simp only [statusPath, List.length_append, List.length_cons, List.length_nil, pathSize,
      contentSize]
    omega
  rw [getProcInfo_opens, if_pos hfits, hreads, ← t.scanFields_iff]
  constructor
  · rintro ⟨props, hrun, rfl, -⟩
    cases hscan : scanFields old maxFields 0 (cString (text t.lines)) with
    | none =>
        rw [hscan] at hrun
        contradiction
    | some fs =>
        rw [hscan] at hrun
        rw [Info.fields.inj hrun]
  · intro hscan
    rw [hscan]
    refine ⟨t.lines, rfl, rfl, ?_, ?_⟩
    · intro l hl
      rw [getProcFieldValue_eq, KeyedList.lookup_of_mem t.distinct hl, Option.map_some]
    · intro key hkey
      rw [getProcFieldValue_eq, KeyedList.lookup_eq_none_iff.mpr hkey, Option.map_none]

/-- The lines `N:<tab>x` and `U:<tab>7`, read in two pieces. -/
abbrev plainTwo : PlainText where
  lines := [⟨[78], [120]⟩, ⟨[85], [55]⟩]
  plain := by
    refine List.forall_mem_cons.mpr ⟨?_, List.forall_mem_singleton.mpr ?_⟩
    · exact ⟨by decide, by decide, by decide, by decide, by simp [isspace], by decide, by decide⟩
    · exact ⟨by decide, by decide, by decide, by decide, by simp [isspace], by decide, by decide⟩
  distinct := by decide
  lines_lt := by decide
  text_lt := by decide

theorem fields_are_lines_two :
    ∃ props, getProcInfo ⟨[49, 50], .opens [⟨[78, 58], by decide⟩,
        ⟨[9, 120, 10, 85, 58, 9, 55, 10], by decide⟩] none, fun _ => ⟨[], [63]⟩⟩ = .fields props ∧
      props = [⟨[78], [120]⟩, ⟨[85], [55]⟩] := by
  have hkept : ValuesKept (fun _ => ⟨[], [63]⟩) 0 plainTwo.lines := by
    simp [valuesKept_cons, valuesKept_nil]
  obtain ⟨props, hrun, heq, -⟩ := (fields_are_lines_iff plainTwo [49, 50] (by decide)
    [⟨[78, 58], by decide⟩, ⟨[9, 120, 10, 85, 58, 9, 55, 10], by decide⟩] rfl
    fun _ => ⟨[], [63]⟩).mpr ⟨by decide, hkept⟩
  exact ⟨props, hrun, heq⟩

/-- After `A:<tab>` and `B:<tab>x` the value of `A` is the second line. -/
theorem empty_value_takes_next_line :
    getProcInfo ⟨[49], .opens [⟨text [⟨[65], []⟩, ⟨[66], [120]⟩], by decide⟩] none,
        fun _ => ⟨[], []⟩⟩ = .fields [⟨[65], [66, 58, 9, 120]⟩, ⟨[66], [120]⟩] :=
  rfl

end TlpiExercises.ProcessList
