import TlpiExercises.ProcDirs
import TlpiExercises.ProcessListFields

/-!
# What process-list prints

The pids of `/proc` are stored in the blocks and the table of `readDirContent` before the
first status is read. Of a status text the parse loop sees what stands before its first
zero byte. The user id is scanned with `%d` and compared as a `uid_t`, where a negative
number is one of the upper half.
-/
namespace TlpiExercises.ProcessList
open CText ProcDirs

/-- The entries of the table before `NULL`. -/
def storedPids (procs : List (Option (List UInt8))) : List (List UInt8) :=
  (procs.takeWhile Option.isSome).reduceOption

/-- `main` for the user with this id. Under each name stand the status file and the blocks
that its process gets; `realUid` is what the uninitialised variable holds. -/
def main (userId realUid : UInt32) (status : List UInt8 → Status)
    (old : List UInt8 → ℕ → Field) (proc : Listing) : List Printed × Option Stop :=
  match readDirContent proc with
  | .exit => ([], some .exit)
  | .table procs =>
      mainLoop userId ((storedPids procs).map fun pid => ⟨pid, status pid, old pid⟩) realUid
  -- the table is read through the pointer that was returned
  | .null => ([], some .undefined)
  | .undefined => ([], some .undefined)

@[simp] theorem storedPids_listed (names : List (List UInt8)) :
    storedPids (ProcDirs.listed names) = names.filter isPid := by
  have hsome : ∀ d ∈ (names.filter isPid).map some, d.isSome := by
    intro d hd
    obtain ⟨pid, -, rfl⟩ := List.mem_map.mp hd
    rfl
  rw [storedPids, ProcDirs.listed, List.takeWhile_append_of_pos hsome,
    List.takeWhile_cons_of_neg (by simp), List.append_nil]
  exact List.filterMap_map.trans List.filterMap_some

/-- The value of a user id: it starts with the number `uid`, after any white space. -/
def UidValue (uid : ℤ) (value : List UInt8) : Prop :=
  ∃ ws t rest, value = ws ++ (t ++ rest) ∧ (∀ c ∈ ws, isspace c) ∧ IsNumeral t uid ∧
    ∀ c ∈ rest.head?, isdigit c = false

/-- A status text with distinct keys, within the limits of the arrays, whose `Uid` line
starts with a number that fits an `int`. -/
structure StatusText where
  lines : List Field
  ok : ∀ l ∈ lines, l.Ok
  distinct : (lines.map Field.key).Nodup
  lines_lt : lines.length < maxFields
  text_lt : (text lines).length < 9500
  uid : ℤ
  le_uid : -2 ^ 31 ≤ uid
  uid_lt : uid < 2 ^ 31
  uidLine : ∃ l ∈ lines, l.key = uidKey ∧ UidValue uid l.value

/-- The lines before the first one with a zero byte, and from this one on. -/
def wholeLines (lines : List Field) : List Field := lines.takeWhile fun l => 0 ∉ l.line

def cutLines (lines : List Field) : List Field := lines.dropWhile fun l => 0 ∉ l.line

/-- The first zero byte of the text, if there is one, is at the start of a line, and the
`Uid` line comes before it. -/
def UidSeen (lines : List Field) : Prop :=
  (∀ l ∈ (cutLines lines).head?, l.key.head? = some 0) ∧ uidKey ∈ (wholeLines lines).map Field.key

/-- What the loop sees of the first line with a zero byte. -/
def cutText (lines : List Field) : List UInt8 :=
  (cutLines lines).head?.elim [] fun l => cString l.line

theorem cString_text (lines : List Field) :
    cString (text lines) = text (wholeLines lines) ++ cutText lines := by
  induction lines with
  | nil => rfl
  | cons l lines ih =>
      rw [text_cons]
      by_cases hzero : 0 ∈ l.line
      · have hwhole : wholeLines (l :: lines) = [] := by simp [wholeLines, hzero]
        have hcut : cutText (l :: lines) = cString l.line := by simp [cutText, cutLines, hzero]
        rw [cString_append_of_mem hzero, hwhole, hcut]
        rfl
      · have hwhole : wholeLines (l :: lines) = l :: wholeLines lines := by
          simp [wholeLines, hzero]
        have hcut : cutText (l :: lines) = cutText lines := by simp [cutText, cutLines, hzero]
        have hnewline : cString (newline :: text lines) = newline :: cString (text lines) :=
          cString_append_of_notMem (u := [newline]) (by decide) (text lines)
        rw [cString_append_of_notMem hzero, hnewline, ih, hwhole, hcut, text_cons,
          List.append_assoc, List.cons_append]

theorem wholeLines_sublist (lines : List Field) : (wholeLines lines).Sublist lines :=
  List.takeWhile_sublist _

theorem cutLines_head_mem {lines : List Field} {l : Field} (hl : l ∈ (cutLines lines).head?) :
    l ∈ lines :=
  (List.dropWhile_sublist _).subset (List.mem_of_mem_head? hl)

theorem newline_notMem_cutText {lines : List Field} (h : ∀ l ∈ lines, l.Ok) :
    newline ∉ cutText lines := by
  rw [cutText]
  cases hcut : (cutLines lines).head? with
  | none => simp
  | some l =>
      intro hmem
      exact (h l (cutLines_head_mem hcut)).newline_line ((List.takeWhile_sublist _).subset hmem)

theorem cString_line_eq_nil_iff {l : Field} (hl : l.key ≠ []) :
    cString l.line = [] ↔ l.key.head? = some 0 := by
  obtain ⟨c, key, hkey⟩ := List.exists_cons_of_ne_nil hl
  by_cases hc : c = 0
  · simp [cString, Field.line, hkey, hc]
  · simp [cString, Field.line, hkey, hc]

theorem cutText_eq_nil_iff {lines : List Field} (h : ∀ l ∈ lines, l.Ok) :
    cutText lines = [] ↔ ∀ l ∈ (cutLines lines).head?, l.key.head? = some 0 := by
  rw [cutText]
  cases hcut : (cutLines lines).head? with
  | none => simp
  | some l => simpa using cString_line_eq_nil_iff (h l (cutLines_head_mem hcut)).key_ne

/-- Lines with part of a line behind them lead the loop out of the text. -/
theorem scanFields_cut {lines : List Field} (h : ∀ l ∈ lines, l.Ok) (old : ℕ → Field)
    (slots n : ℕ) {part : List UInt8} (hpart : part ≠ []) (hnl : newline ∉ part) :
    scanFields old slots n (text lines ++ part) = none := by
  induction lines generalizing slots n with
  | nil => exact scanFields_unterminated old slots n hpart hnl
  | cons l lines ih =>
      obtain ⟨hl, hlines⟩ := List.forall_mem_cons.mp h
      rw [text_cons, List.append_assoc, List.cons_append]
      cases slots with
      | zero =>
          obtain ⟨c, s, hcs⟩ : ∃ c s, l.line ++ newline :: (text lines ++ part) = c :: s :=
            List.exists_cons_of_ne_nil (by simp)
          rw [hcs]
          rfl
      | succ slots =>
          rw [scanFields_line old slots n hl.newline_line, ih hlines]
          cases scanField (old n) (l.line ++ newline :: (text lines ++ part)) <;> rfl

theorem getProcFieldValue_stores_none {lines fs : List Field} (h : List.Forall₂ Stores lines fs)
    {key : List UInt8} (hkey : key ∉ lines.map Field.key) : getProcFieldValue key fs = none := by
  induction h with
  | nil => rfl
  | @cons l f lines fs hlf hall ih =>
      rw [List.map_cons, List.mem_cons, not_or] at hkey
      have hne : f.key ≠ key := by
        rw [hlf.1]
        exact fun heq => hkey.1 heq.symm
      rw [getProcFieldValue, List.find?_cons_of_neg (by simpa using hne)]
      exact ih hkey.2

/-- The scanned number as a `uid_t`. -/
def comparedUid (uid : ℤ) : UInt32 := (Int32.ofInt uid).toUInt32

/-- The number of a `Uid` line is the one that is compared. -/
theorem scanUid_stored {l f : Field} {uid : ℤ} (hvalue : UidValue uid l.value)
    (hle : -2 ^ 31 ≤ uid) (hlt : uid < 2 ^ 31) (hf : Stores l f) (realUid : UInt32) :
    scanUid f.value realUid = comparedUid uid := by
  obtain ⟨ws, t, rest, hl, hws, ht, hrest⟩ := hvalue
  obtain ⟨c, t', rfl⟩ := List.exists_cons_of_ne_nil ht.ne_nil
  have hstored : f.value = c :: t' ++ rest :=
    hf.2 ws c (t' ++ rest) hl hws ht.head_not_space
  have hscan := scanInt_numeral ht [] (by simp) hrest
  rw [List.nil_append] at hscan
  simp only [scanUid, hstored, hscan, clampLong_eq (by omega : -2 ^ 63 ≤ uid) (by omega),
    comparedUid]

/-- The compared number is the user's, or the negative one that is the same `uid_t`. -/
theorem comparedUid_eq_iff {uid : ℤ} (hle : -2 ^ 31 ≤ uid) (hlt : uid < 2 ^ 31)
    (userId : UInt32) :
    comparedUid uid = userId ↔ uid = userId.toNat ∨ uid < 0 ∧ uid + 2 ^ 32 = userId.toNat := by
  have hnat : (comparedUid uid).toNat = (uid % 2 ^ 32).toNat := BitVec.toNat_ofInt uid
  have huser := userId.toNat_lt
  rw [← UInt32.toNat_inj, hnat]
  omega

/-- What the parse loop makes of a status text: the `Uid` is found, or the loop leaves the
text, or the `Uid` is not among the fields. -/
theorem getProcInfo_text (t : StatusText) {name : List UInt8}
    (hname : (statusPath name).length < pathSize) {reads : List Chunk}
    (hreads : content reads = text t.lines) (old : ℕ → Field) :
    (UidSeen t.lines ∧ ∃ props value, getProcInfo ⟨name, .opens reads none, old⟩ = .fields props ∧
        getProcFieldValue uidKey props = some value ∧
        ∀ realUid, scanUid value realUid = comparedUid t.uid) ∨
      ¬ UidSeen t.lines ∧ (getProcInfo ⟨name, .opens reads none, old⟩ = .undefined ∨
        ∃ props, getProcInfo ⟨name, .opens reads none, old⟩ = .fields props ∧
          getProcFieldValue uidKey props = none) := by
  have hlt := t.text_lt
  have hwhole : ∀ l ∈ wholeLines t.lines, l.Ok := fun l hl =>
    t.ok l ((wholeLines_sublist t.lines).subset hl)
  rw [getProcInfo_opens, hreads, if_pos ⟨hname, by simp only [contentSize]; omega⟩, cString_text,
    UidSeen, ← cutText_eq_nil_iff t.ok]
  by_cases hcut : cutText t.lines = []
  · have hslots := (wholeLines_sublist t.lines).length_le.trans t.lines_lt.le
    obtain ⟨fs, hfs, hall⟩ := scanFields_text hwhole old 0 hslots
    rw [hcut, List.append_nil, hfs]
    by_cases hseen : uidKey ∈ (wholeLines t.lines).map Field.key
    · obtain ⟨k, hk, hkey⟩ := List.mem_map.mp hseen
      obtain ⟨l, hl, hlkey, hvalue⟩ := t.uidLine
      have hkl : k = l := List.inj_on_of_nodup_map t.distinct
        ((wholeLines_sublist t.lines).subset hk) hl (hkey.trans hlkey.symm)
      subst hkl
      have hdistinct := ((wholeLines_sublist t.lines).map Field.key).nodup t.distinct
      obtain ⟨f, hf, hfound⟩ := getProcFieldValue_stores hall hdistinct hk
      rw [hkey] at hfound
      exact .inl ⟨⟨rfl, hseen⟩, fs, f.value, rfl, hfound,
        scanUid_stored hvalue t.le_uid t.uid_lt hf⟩
    · exact .inr ⟨fun h => hseen h.2, .inr ⟨fs, rfl, getProcFieldValue_stores_none hall hseen⟩⟩
  · rw [scanFields_cut hwhole old maxFields 0 hcut (newline_notMem_cutText t.ok)]
    exact .inr ⟨fun h => hcut h.1, .inl rfl⟩

/-- How the scan finds the status file of a process with this text: it reads all of it
in pieces, or the process vanishes before or while it is read. -/
inductive Delivers (t : StatusText) : Status → Prop
  | read (reads : List Chunk) : content reads = text t.lines → Delivers t (.opens reads none)
  | openFailed : Delivers t (.openFails .enoent)
  | readFailed (reads : List Chunk) : content reads <+: text t.lines →
      Delivers t (.opens reads (some .esrch))

/-- Whether the status was read to its end. -/
def Status.wasRead : Status → Bool
  | .opens _ none => true
  | _ => false

/-- A process that vanishes is reported as gone. -/
theorem getProcInfo_gone {t : StatusText} {status : Status} (h : Delivers t status)
    (hread : status.wasRead = false) {name : List UInt8}
    (hname : (statusPath name).length < pathSize) (old : ℕ → Field) :
    getProcInfo ⟨name, status, old⟩ = .gone := by
  rw [getProcInfo, if_neg (Nat.not_le.mpr hname)]
  cases h with
  | read reads htext => contradiction
  | openFailed => rfl
  | readFailed reads hprefix =>
      have hfits : (content reads).length ≤ contentSize := by
        have hle := hprefix.length_le
        have hlt := t.text_lt
        simp only [contentSize]
        omega
      simp only [readContent_eq reads, if_pos hfits]
      rfl

/-- `/proc` as a run finds it: the names of the listing, and under each pid a process that
has a status text, is read or vanishes, and gets these blocks for its fields. -/
structure Snapshot where
  names : List (List UInt8)
  status : List UInt8 → Status
  old : List UInt8 → ℕ → Field
  statusText : List UInt8 → StatusText
  delivers : ∀ pid ∈ names.filter isPid, Delivers (statusText pid) (status pid)

/-- The pids whose status was read and whose first user id is the requested one. -/
def Snapshot.owned (s : Snapshot) (userId : UInt32) : List (List UInt8) :=
  (s.names.filter isPid).filter fun pid =>
    (s.status pid).wasRead && (s.statusText pid).uid = userId.toNat

/-- The pids whose number is compared equal to the requested one. -/
def Snapshot.compared (s : Snapshot) (userId : UInt32) (pids : List (List UInt8)) :
    List (List UInt8) :=
  pids.filter fun pid => (s.status pid).wasRead && comparedUid (s.statusText pid).uid = userId

def Snapshot.entry (s : Snapshot) (pid : List UInt8) : Entry := ⟨pid, s.status pid, s.old pid⟩

section Loop
variable {s : Snapshot} (userId realUid : UInt32)

/-- A pid of the snapshot is gone, or its `Uid` is seen and compared, or the loop ends at it. -/
theorem Snapshot.entry_cases {pid : List UInt8}
    (hdelivers : Delivers (s.statusText pid) (s.status pid))
    (hfit : pid.length + 1 ≤ blockSize) :
    ((s.status pid).wasRead = false ∧ getProcInfo (s.entry pid) = .gone) ∨
      ((s.status pid).wasRead = true ∧ UidSeen (s.statusText pid).lines ∧
        ∃ props value, getProcInfo (s.entry pid) = .fields props ∧
          getProcFieldValue uidKey props = some value ∧
          ∀ realUid, scanUid value realUid = comparedUid (s.statusText pid).uid) ∨
      (s.status pid).wasRead = true ∧ ¬ UidSeen (s.statusText pid).lines ∧
        ∀ es, mainLoop userId (s.entry pid :: es) realUid = ([], some .undefined) := by
  have hname : (statusPath pid).length < pathSize := by
    simp only [blockSize] at hfit
    simp only [statusPath, List.length_append, List.length_cons, List.length_nil, pathSize]
    omega
  rw [Snapshot.entry]
  cases hread : (s.status pid).wasRead with
  | false => exact .inl ⟨rfl, getProcInfo_gone hdelivers hread hname _⟩
  | true =>
      refine .inr ?_
      generalize s.status pid = status at hdelivers hread
      cases hdelivers with
      | openFailed => contradiction
      | readFailed reads hprefix => contradiction
      | read reads htext =>
          rcases getProcInfo_text (s.statusText pid) hname htext (s.old pid) with
            ⟨hseen, hfound⟩ | ⟨hseen, hinfo | ⟨props, hinfo, hnone⟩⟩
          · exact .inl ⟨rfl, hseen, hfound⟩
          · exact .inr ⟨rfl, hseen, fun es => by simp only [mainLoop, hinfo]⟩
          · exact .inr ⟨rfl, hseen, fun es => by simp only [mainLoop, hinfo, hnone]⟩

variable {pids : List (List UInt8)}
  (hdelivers : ∀ pid ∈ pids, Delivers (s.statusText pid) (s.status pid))
  (hfit : ∀ pid ∈ pids, pid.length + 1 ≤ blockSize)
include hdelivers hfit

/-- The loop lists the pids that are compared equal if each `Uid` is seen. -/
theorem mainLoop_of_seen
    (hseen : ∀ pid ∈ pids, (s.status pid).wasRead → UidSeen (s.statusText pid).lines) :
    ∃ out, mainLoop userId (pids.map s.entry) realUid = (out, none) ∧
      listed out = s.compared userId pids := by
  induction pids generalizing realUid with
  | nil => exact ⟨[], rfl, rfl⟩
  | cons pid pids ih =>
      obtain ⟨hpid, hdelivers⟩ := List.forall_mem_cons.mp hdelivers
      obtain ⟨hlen, hfit⟩ := List.forall_mem_cons.mp hfit
      obtain ⟨hsee, hseen⟩ := List.forall_mem_cons.mp hseen
      rw [List.map_cons]
      rcases s.entry_cases userId realUid hpid hlen with
        ⟨hread, hinfo⟩ | ⟨hread, -, props, value, hinfo, hvalue, huid⟩ | ⟨hread, hnot, -⟩
      · obtain ⟨out, hout, hlisted⟩ := ih realUid hdelivers hfit hseen
        refine ⟨.notWithUs pid :: out, by simp only [mainLoop, hinfo, hout]; rfl, ?_⟩
        have hskip : s.compared userId (pid :: pids) = s.compared userId pids := by
          simp [Snapshot.compared, hread]
        rw [hskip]
        exact hlisted
      · obtain ⟨out, hout, hlisted⟩ := ih (scanUid value realUid) hdelivers hfit hseen
        simp only [mainLoop, hinfo, hvalue, hout]
        rw [huid realUid]
        by_cases hequal : comparedUid (s.statusText pid).uid = userId
        · refine ⟨.proc pid (getProcFieldValue nameKey props) :: out, ?_, ?_⟩
          · rw [if_neg (not_not.mpr hequal)]
            rfl
          · have htake : s.compared userId (pid :: pids) = pid :: s.compared userId pids := by
              simp [Snapshot.compared, hread, hequal]
            rw [htake, ← hlisted]
            rfl
        · refine ⟨out, if_pos hequal, ?_⟩
          have hskip : s.compared userId (pid :: pids) = s.compared userId pids := by
            simp [Snapshot.compared, hequal]
          rw [hskip]
          exact hlisted
      · exact absurd (hsee hread) hnot

/-- A loop that gets through the pids has seen each `Uid`. -/
theorem seen_of_mainLoop (hend : (mainLoop userId (pids.map s.entry) realUid).2 = none) :
    ∀ pid ∈ pids, (s.status pid).wasRead → UidSeen (s.statusText pid).lines := by
  induction pids generalizing realUid with
  | nil => simp
  | cons pid pids ih =>
      obtain ⟨hpid, hdelivers⟩ := List.forall_mem_cons.mp hdelivers
      obtain ⟨hlen, hfit⟩ := List.forall_mem_cons.mp hfit
      rw [List.map_cons] at hend
      refine List.forall_mem_cons.mpr ?_
      rcases s.entry_cases userId realUid hpid hlen with
        ⟨hread, hinfo⟩ | ⟨-, hseen, props, value, hinfo, hvalue, -⟩ | ⟨-, -, hstop⟩
      · simp only [mainLoop, hinfo] at hend
        exact ⟨fun h => absurd (hread.symm.trans h) (by decide), ih realUid hdelivers hfit hend⟩
      · simp only [mainLoop, hinfo, hvalue] at hend
        refine ⟨fun _ => hseen, ih (scanUid value realUid) hdelivers hfit ?_⟩
        split_ifs at hend <;> exact hend
      · rw [hstop] at hend
        contradiction

end Loop

/-- The pids listed are the user's exactly if no negative number stands for the user. -/
theorem Snapshot.compared_eq_owned_iff (s : Snapshot) (userId : UInt32) :
    s.compared userId (s.names.filter isPid) = s.owned userId ↔
      ∀ pid ∈ s.names.filter isPid, (s.status pid).wasRead →
        ¬ ((s.statusText pid).uid < 0 ∧ (s.statusText pid).uid + 2 ^ 32 = userId.toNat) := by
  have hequal := fun pid =>
    comparedUid_eq_iff (s.statusText pid).le_uid (s.statusText pid).uid_lt userId
  constructor
  · intro heq pid hpid hread hneg
    have hmem : pid ∈ s.compared userId (s.names.filter isPid) :=
      List.mem_filter.mpr ⟨hpid, by simp [hread, (hequal pid).mpr (.inr hneg)]⟩
    rw [heq] at hmem
    have howned : (s.statusText pid).uid = userId.toNat := by
      simpa [hread] using (List.mem_filter.mp hmem).2
    omega
  · intro h
    refine List.filter_congr fun pid hpid => ?_
    cases hread : (s.status pid).wasRead with
    | false => rfl
    | true =>
        rw [Bool.true_and, Bool.true_and, decide_eq_decide, hequal]
        exact or_iff_left (h pid hpid hread)

/-- The run prints exactly the user's pids, in the order of the listing, if and only if the
pids fit their blocks and the table, the `Uid` line of every status that is read comes
before any zero byte, the first of which starts a line, and no negative number on it is
the user's id as a `uid_t`. -/
theorem main_lists_owned_iff (userId realUid : UInt32) (s : Snapshot) (failed : Bool) :
    (∃ out, main userId realUid s.status s.old (.opens s.names failed) = (out, none) ∧
        listed out = s.owned userId) ↔
      (NamesFit s.names ∧ (ProcDirs.listed s.names).length ≤ maxProcCnt) ∧
        ∀ pid ∈ s.names.filter isPid, (s.status pid).wasRead →
          UidSeen (s.statusText pid).lines ∧
            ¬ ((s.statusText pid).uid < 0 ∧ (s.statusText pid).uid + 2 ^ 32 = userId.toNat) := by
  rw [main, readDirContent, readDirOrExit_opens]
  by_cases hfit : NamesFit s.names ∧ (ProcDirs.listed s.names).length ≤ maxProcCnt
  · have hloop := mainLoop_of_seen userId realUid s.delivers hfit.1
    have hequal := s.compared_eq_owned_iff userId
    simp only [if_pos hfit, storedPids_listed, and_iff_right hfit]
    constructor
    · rintro ⟨out, hrun, hlisted⟩
      have hseen := seen_of_mainLoop userId realUid s.delivers hfit.1 (congrArg Prod.snd hrun)
      obtain ⟨out', hrun', hlisted'⟩ := hloop hseen
      have hout : out' = out := congrArg Prod.fst (hrun'.symm.trans hrun)
      rw [hout, hlisted, eq_comm, hequal] at hlisted'
      exact fun pid hpid hread => ⟨hseen pid hpid hread, hlisted' pid hpid hread⟩
    · intro h
      obtain ⟨out, hrun, hlisted⟩ := hloop fun pid hpid hread => (h pid hpid hread).1
      refine ⟨out, hrun, hlisted.trans (hequal.mpr fun pid hpid hread => (h pid hpid hread).2)⟩
  · rw [if_neg hfit]
    refine iff_of_false ?_ fun h => hfit h.1
    rintro ⟨out, hrun, -⟩
    exact absurd (congrArg Prod.snd hrun) (Option.some_ne_none Stop.undefined)

/-- The lines `Name:<tab>` and `Uid:<tab>7`. -/
abbrev textSeven : StatusText where
  lines := [⟨nameKey, []⟩, ⟨uidKey, [55]⟩]
  ok := by
    refine List.forall_mem_cons.mpr ⟨?_, List.forall_mem_singleton.mpr ?_⟩
    · exact ⟨by decide, by decide, by decide, by decide, by decide⟩
    · exact ⟨by decide, by decide, by decide, by decide, by decide⟩
  distinct := by decide
  lines_lt := by decide
  text_lt := by decide
  uid := 7
  le_uid := by decide
  uid_lt := by decide
  uidLine := ⟨⟨uidKey, [55]⟩, by simp, rfl, [], [55], [], rfl, by simp,
    .unsigned (by simp) (by simp [isdigit]), by simp⟩

/-- `/proc` with one process, of user 7 and with an empty name, whose status is read in one
piece. -/
abbrev oneProcess (pid : List UInt8) : Snapshot where
  names := [pid]
  status := fun _ => .opens [⟨text textSeven.lines, by decide⟩] none
  old := fun _ _ => ⟨[], []⟩
  statusText := fun _ => textSeven
  delivers := fun _ _ => .read _ rfl

example : main 7 0 (oneProcess [49, 50]).status (oneProcess [49, 50]).old (.opens [[49, 50]] false) =
    ([.proc [49, 50] (some [85, 105, 100, 58, 9, 55])], none) := by
  decide +kernel

/-- Process 1000 of user 7 is not printed: its name does not fit the block it is copied to. -/
theorem four_digit_pid_not_listed :
    (oneProcess [49, 48, 48, 48]).owned 7 = [[49, 48, 48, 48]] ∧
      main 7 0 (oneProcess [49, 48, 48, 48]).status (oneProcess [49, 48, 48, 48]).old
        (.opens (oneProcess [49, 48, 48, 48]).names false) = ([], some .undefined) := by
  exact ⟨rfl, rfl⟩

end TlpiExercises.ProcessList
