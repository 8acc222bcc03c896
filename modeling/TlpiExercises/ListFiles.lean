import TlpiExercises.ErrorFunctions

/-!
# Listings of several directories

`listFiles` tests `errno` behind its loop, although nothing sets it to zero: `readdir_r` returns
its error, and `errno` is the one of any call that has failed before. After a directory that cannot
be opened, the next one that can be opened ends the program behind its listing.
-/
namespace TlpiExercises.ListFiles
open CText Stdio ErrorFunctions

/-- The number of an error. -/
abbrev Errno := { e : ℤ // e ≠ 0 }

/-- What the calls for an open directory return. `pathconf` returns `none` for a number that is
not determined, and for an error. -/
structure Dir where
  pathconf : Option ℤ
  pathconfErr : Option Errno
  entries : List (List UInt8)
  readdirFails : Bool
  closeErr : Option Errno

section Program

variable (strerror : ℤ → List UInt8) (dumpcore : Option (List UInt8)) (policy : List UInt8 → ℕ)
  (opendir : List UInt8 → Except Errno Dir)

def printf (text : List UInt8) (p : Process) : Process := { p with out := p.out.printf policy text }

def setErrno (err : Option Errno) (p : Process) : Process :=
  { p with errno := (err.map Subtype.val).getD p.errno }

/-- One round of the loop. -/
def printEntry (dirpath name : List UInt8) (p : Process) : Process :=
  if name = ascii "." ∨ name = ascii ".." then p
  else
    let p := if dirpath = ascii "." then p else printf policy (dirpath ++ ascii "/") p
    printf policy (name ++ ascii "\n") p

/-- The output up to the end of the loop. -/
def printDir (dirpath : List UInt8) (dir : Dir) (p : Process) : Process :=
  let nameMax := dir.pathconf.getD 255
  let p := printf policy (ascii "NAME MAX: " ++ printInt nameMax ++ ascii "\n\n") p
  dir.entries.foldl (fun p name => printEntry policy dirpath name p) p

def openFailed (dirpath : List UInt8) : List UInt8 :=
  ascii "opendir failed on '" ++ dirpath ++ ascii "'"

/-- It returns, or the process ends. -/
def listFiles (p : Process) (dirpath : List UInt8) : Except (Ending × Output) Process :=
  match opendir dirpath with
  | .error e => .ok (errMsg strerror (openFailed dirpath) 0 (setErrno (some e) p))
  | .ok dir =>
      let p := printDir policy dirpath dir (setErrno dir.pathconfErr p)
      if dir.readdirFails then
        .error ((Last.errExit (ascii "readdir_r")).run strerror dumpcore p)
      else if p.errno ≠ 0 then
        .error ((Last.errExit (ascii "readdir")).run strerror dumpcore p)
      else
        match dir.closeErr with
        | some e => .ok (errMsg strerror (ascii "closedir") 0 (setErrno (some e) p))
        | none => .ok p

/-- The end of the program, for the result of its loop. -/
def finish : Except (Ending × Output) Process → Ending × Output
  | .ok p => (.exited 0, p.out.flush)
  | .error r => r

/-- `main`, for the name of the program and its arguments. -/
def main (argv0 : List UInt8) (args : List (List UInt8)) : Ending × Output :=
  let p : Process := ⟨.empty, 0⟩
  if args.head? = some (ascii "--help") then
    (Last.usageErr (argv0 ++ ascii " [dir-path...]\n")).run strerror dumpcore p
  else if args = [] then finish (listFiles strerror dumpcore policy opendir p (ascii "."))
  else finish (args.foldlM (listFiles strerror dumpcore policy opendir) p)

end Program

/-- The listing of a directory. -/
def listing (dirpath : List UInt8) (dir : Dir) : List UInt8 :=
  ascii "NAME MAX: " ++ printInt (dir.pathconf.getD 255) ++ ascii "\n\n" ++
    (dir.entries.filter fun name => name ≠ ascii "." ∧ name ≠ ascii "..").flatMap fun name =>
      (if dirpath = ascii "." then [] else dirpath ++ ascii "/") ++ name ++ ascii "\n"

/-- A message of `errMsg` or `errExit`. -/
def message (strerror : ℤ → List UInt8) (err : ℤ) (msg : List UInt8) : List UInt8 :=
  (line strerror true err msg).take (bufSize - 1)

/-- What a directory adds to the output if the program goes on. -/
def report (strerror : ℤ → List UInt8) (opendir : List UInt8 → Except Errno Dir)
    (dirpath : List UInt8) : List UInt8 :=
  match opendir dirpath with
  | .error e => message strerror e (openFailed dirpath)
  | .ok dir =>
      listing dirpath dir ++ (dir.closeErr.map fun e => message strerror e (ascii "closedir")).getD []

/-- A call for this directory fails and the program goes on. -/
def leavesErrno (opendir : List UInt8 → Except Errno Dir) (dirpath : List UInt8) : Bool :=
  match opendir dirpath with
  | .error _ => true
  | .ok dir => dir.closeErr.isSome

def opens (opendir : List UInt8 → Except Errno Dir) (dirpath : List UInt8) : Bool :=
  (opendir dirpath).isOk

/-- No call for the entries of the directory fails. -/
def Readable (opendir : List UInt8 → Except Errno Dir) (dirpath : List UInt8) : Prop :=
  ∀ dir, opendir dirpath = .ok dir → dir.readdirFails = false ∧ dir.pathconfErr = none

/-- No directory is opened after a call has failed. -/
structure Clear (opendir : List UInt8 → Except Errno Dir) (dirs : List (List UInt8)) : Prop where
  readable : ∀ d ∈ dirs, Readable opendir d
  inOrder : dirs.Pairwise fun d d' => leavesErrno opendir d → opens opendir d' = false

section Steps

variable {strerror : ℤ → List UInt8} {dumpcore : Option (List UInt8)} {policy : List UInt8 → ℕ}
  {opendir : List UInt8 → Except Errno Dir}

/-- An error number is not zero. -/
theorem setErrno_eq_zero_iff (err : Option Errno) (p : Process) :
    (setErrno err p).errno = 0 ↔ err = none ∧ p.errno = 0 := by
  cases err with
  | none => simp [setErrno]
  | some e => simp [setErrno, e.2]

theorem opens_of_ok {d : List UInt8} {dir : Dir} (hopen : opendir d = .ok dir) :
    opens opendir d = true := by
  rw [opens, hopen]
  rfl

theorem readable_iff {d : List UInt8} {dir : Dir} (hopen : opendir d = .ok dir) :
    Readable opendir d ↔ dir.readdirFails = false ∧ dir.pathconfErr = none := by
  constructor
  · intro h
    exact h dir hopen
  · intro h dir' hdir'
    obtain rfl : dir = dir' := Except.ok.inj (hopen.symm.trans hdir')
    exact h

theorem printEntry_spec (policy : List UInt8 → ℕ) (dirpath name : List UInt8) (p : Process) :
    (printEntry policy dirpath name p).errno = p.errno ∧
      (printEntry policy dirpath name p).out.printed = p.out.printed ++
        ([name].filter fun name => name ≠ ascii "." ∧ name ≠ ascii "..").flatMap fun name =>
          (if dirpath = ascii "." then [] else dirpath ++ ascii "/") ++ name ++ ascii "\n" := by
  unfold printEntry
  by_cases hdot : name = ascii "." ∨ name = ascii ".."
  · have hskip : ¬ (name ≠ ascii "." ∧ name ≠ ascii "..") := by tauto
    rw [if_pos hdot]
    simp [hskip]
  · have hkeep : name ≠ ascii "." ∧ name ≠ ascii ".." := by tauto
    rw [if_neg hdot]
    by_cases hcurrent : dirpath = ascii "." <;> simp [hkeep, hcurrent, printf]

theorem printDir_spec (policy : List UInt8 → ℕ) (dirpath : List UInt8) (dir : Dir) (p : Process) :
    (printDir policy dirpath dir p).errno = p.errno ∧
      (printDir policy dirpath dir p).out.printed = p.out.printed ++ listing dirpath dir := by
  unfold printDir listing
  generalize dir.entries = entries
  -- the entries are printed one by one behind the first line
  have hloop : ∀ q : Process,
      (entries.foldl (fun p name => printEntry policy dirpath name p) q).errno = q.errno ∧
      (entries.foldl (fun p name => printEntry policy dirpath name p) q).out.printed =
        q.out.printed ++
        (entries.filter fun name => name ≠ ascii "." ∧ name ≠ ascii "..").flatMap fun name =>
          (if dirpath = ascii "." then [] else dirpath ++ ascii "/") ++ name ++ ascii "\n" := by
    induction entries with
    | nil => simp
    | cons name entries ih =>
        intro q
        obtain ⟨herrno, hprinted⟩ := printEntry_spec policy dirpath name q
        obtain ⟨herrno', hprinted'⟩ := ih (printEntry policy dirpath name q)
        rw [List.foldl_cons, herrno', hprinted', herrno, hprinted, List.append_assoc,
          ← List.flatMap_append, ← List.filter_append, List.singleton_append]
        exact ⟨rfl, rfl⟩
  obtain ⟨herrno, hprinted⟩ := hloop _
  rw [herrno, hprinted]
  simp [printf]

theorem errExit_spec (msg : List UInt8) (p : Process) :
    ((Last.errExit msg).run strerror dumpcore p).2.file =
        p.out.printed ++ message strerror p.errno msg ∧
      ((Last.errExit msg).run strerror dumpcore p).1 ≠ .exited 0 := by
  rw [Last.run_file, Last.run_ending]
  refine ⟨rfl, ?_⟩
  split_ifs <;> simp

theorem errMsg_spec (strerror : ℤ → List UInt8) (msg : List UInt8) (p : Process) :
    (errMsg strerror msg 0 p).out.printed = p.out.printed ++ message strerror p.errno msg ∧
      (errMsg strerror msg 0 p).errno = p.errno := by
  simp [errMsg, outputError, errorBuf_eq, message]

variable (strerror dumpcore policy opendir) in
/-- The function returns with the report of the directory, or ends the program behind the
listing. -/
theorem listFiles_cases (p : Process) (d : List UInt8) :
    (∃ q, listFiles strerror dumpcore policy opendir p d = .ok q ∧
        q.out.printed = p.out.printed ++ report strerror opendir d ∧
        (q.errno = 0 ↔ p.errno = 0 ∧ leavesErrno opendir d = false) ∧ Readable opendir d ∧
        (p.errno ≠ 0 → opens opendir d = false)) ∨
      ∃ r dir err msg, listFiles strerror dumpcore policy opendir p d = .error r ∧
        opendir d = .ok dir ∧
        r.2.file = p.out.printed ++ (listing d dir ++ message strerror err msg) ∧
        r.1 ≠ .exited 0 ∧ (Readable opendir d → p.errno ≠ 0) := by
  unfold listFiles
  cases hopen : opendir d with
  | error e =>
      obtain ⟨hprinted, herrno⟩ := errMsg_spec strerror (openFailed d)
        (setErrno (some e) p)
      refine .inl ⟨_, rfl, ?_, ?_, ?_, ?_⟩
      · rw [hprinted, report, hopen]
        rfl
      · rw [herrno, setErrno_eq_zero_iff]
        simp [leavesErrno, hopen]
      · intro dir hdir
        rw [hopen] at hdir
        contradiction
      · simp [opens, hopen, Except.isOk, Except.toBool]
  | ok dir =>
      obtain ⟨herrno, hprinted⟩ := printDir_spec policy d dir
        (setErrno dir.pathconfErr p)
      dsimp only
      generalize printDir policy d dir (setErrno dir.pathconfErr p) = q at herrno hprinted
      have hexit : ∀ msg, ((Last.errExit msg).run strerror dumpcore q).2.file =
          p.out.printed ++ (listing d dir ++ message strerror q.errno msg) := by
        intro msg
        rw [(errExit_spec msg q).1, hprinted, List.append_assoc]
        rfl
      split_ifs with hfails hne
      · refine .inr ⟨_, dir, q.errno, _, rfl, rfl, hexit _, (errExit_spec _ q).2, fun h => ?_⟩
        rw [((readable_iff hopen).mp h).1] at hfails
        contradiction
      · refine .inr ⟨_, dir, q.errno, _, rfl, rfl, hexit _, (errExit_spec _ q).2, fun h => ?_⟩
        rw [herrno, ((readable_iff hopen).mp h).2] at hne
        exact hne
      · have hzero : q.errno = 0 := not_not.mp hne
        -- `errno` is zero, so `pathconf` has not failed and nothing before
        have hpathconf : dir.pathconfErr = none ∧ p.errno = 0 :=
          (setErrno_eq_zero_iff ..).mp (herrno.symm.trans hzero)
        have hread : Readable opendir d :=
          (readable_iff hopen).mpr ⟨by simpa using hfails, hpathconf.1⟩
        cases hclose : dir.closeErr with
        | none =>
            refine .inl ⟨q, rfl, ?_, ?_, hread, fun h => absurd hpathconf.2 h⟩
            · rw [hprinted]
              simp [report, hopen, hclose, setErrno]
            · simp [hzero, hpathconf.2, leavesErrno, hopen, hclose]
        | some e =>
            obtain ⟨hprinted', herrno'⟩ := errMsg_spec strerror (ascii "closedir")
              (setErrno (some e) q)
            refine .inl ⟨_, rfl, ?_, ?_, hread, fun h => absurd hpathconf.2 h⟩
            · rw [hprinted']
              simp [report, hopen, hclose, setErrno, hprinted]
            · rw [herrno', setErrno_eq_zero_iff]
              simp [leavesErrno, hopen, hclose]

theorem clear_cons_iff {d : List UInt8} {dirs : List (List UInt8)} :
    Clear opendir (d :: dirs) ↔ Readable opendir d ∧
      (leavesErrno opendir d → ∀ d' ∈ dirs, opens opendir d' = false) ∧ Clear opendir dirs := by
  constructor
  · intro h
    obtain ⟨hfirst, hinOrder⟩ := List.pairwise_cons.mp h.inOrder
    obtain ⟨hread, hreadable⟩ := List.forall_mem_cons.mp h.readable
    exact ⟨hread, fun hleaves d' hd' => hfirst d' hd' hleaves, hreadable, hinOrder⟩
  · rintro ⟨hread, hfirst, hreadable, hinOrder⟩
    exact ⟨List.forall_mem_cons.mpr ⟨hread, hreadable⟩,
      List.pairwise_cons.mpr ⟨fun d' hd' hleaves => hfirst hleaves d' hd', hinOrder⟩⟩

theorem clear_nil : Clear opendir [] := ⟨by simp, .nil⟩

theorem Clear.of_append {dirs more : List (List UInt8)} (h : Clear opendir (dirs ++ more)) :
    Clear opendir dirs :=
  ⟨fun d hd => h.readable d (List.mem_append_left _ hd), (List.pairwise_append.mp h.inOrder).1⟩

variable (strerror dumpcore policy opendir) in
/-- The loop over the arguments. It ends the program at the first directory that is opened after a
call has failed, or that cannot be read. -/
theorem loop_cases (dirs : List (List UInt8)) (p : Process) :
    (∃ q, dirs.foldlM (listFiles strerror dumpcore policy opendir) p = .ok q ∧
        q.out.printed = p.out.printed ++ dirs.flatMap (report strerror opendir) ∧
        Clear opendir dirs ∧ (p.errno ≠ 0 → ∀ d ∈ dirs, opens opendir d = false)) ∨
      ∃ r done d rest dir err msg,
        dirs.foldlM (listFiles strerror dumpcore policy opendir) p = .error r ∧
        dirs = done ++ d :: rest ∧ opendir d = .ok dir ∧
        r.2.file = p.out.printed ++ (done.flatMap (report strerror opendir) ++
          (listing d dir ++ message strerror err msg)) ∧
        r.1 ≠ .exited 0 ∧ Clear opendir done ∧
        (p.errno ≠ 0 → ∀ d ∈ done, opens opendir d = false) ∧
        (p.errno = 0 → ¬ Clear opendir (done ++ [d])) := by
  induction dirs generalizing p with
  | nil => exact .inl ⟨p, rfl, by simp, clear_nil, by simp⟩
  | cons d dirs ih =>
      rw [List.foldlM_cons]
      rcases listFiles_cases strerror dumpcore policy opendir p d with
        ⟨q, hq, hprinted, herrno, hread, hopens⟩ | ⟨r, dir, err, msg, hr, hdir, hfile, hexit, hwhy⟩
      · rw [hq]
        have hleft : leavesErrno opendir d → q.errno ≠ 0 := by
          intro hleaves
          rw [ne_eq, herrno, hleaves]
          simp
        have hkept : p.errno ≠ 0 → q.errno ≠ 0 := fun hne hzero => hne (herrno.mp hzero).1
        rcases ih q with ⟨t, ht, hprinted', hclear, hopens'⟩ |
          ⟨r, done, d', rest, dir, err, msg, hr, hsplit, hdir, hfile, hexit, hclear, hopens', hwhy⟩
        · refine .inl ⟨t, ht, ?_,
            clear_cons_iff.mpr ⟨hread, fun hleaves => hopens' (hleft hleaves), hclear⟩,
            fun hne => List.forall_mem_cons.mpr ⟨hopens hne, hopens' (hkept hne)⟩⟩
          rw [hprinted', hprinted, List.flatMap_cons, List.append_assoc]
        · refine .inr ⟨r, d :: done, d', rest, dir, err, msg, hr, by rw [hsplit]; rfl, hdir, ?_,
            hexit, clear_cons_iff.mpr ⟨hread, fun hleaves => hopens' (hleft hleaves), hclear⟩,
            fun hne => List.forall_mem_cons.mpr ⟨hopens hne, hopens' (hkept hne)⟩, ?_⟩
          · rw [hfile, hprinted, List.flatMap_cons]
            simp only [List.append_assoc]
          · intro hzero hall
            obtain ⟨-, hfirst, htail⟩ := clear_cons_iff.mp hall
            by_cases hleaves : leavesErrno opendir d
            · -- the directory of the failure can be opened, against the order
              have hclosed := hfirst hleaves d' (by simp)
              rw [opens_of_ok hdir] at hclosed
              contradiction
            · exact hwhy (herrno.mpr ⟨hzero, by simpa using hleaves⟩) htail
      · rw [hr]
        refine .inr ⟨r, [], d, dirs, dir, err, msg, rfl, rfl, hdir, ?_, hexit, clear_nil, by simp, ?_⟩
        · rw [hfile]
          rfl
        · intro hzero hclear
          exact hwhy (clear_cons_iff.mp hclear).1 hzero

end Steps

/-- The directories that the program lists. -/
def dirsOf (args : List (List UInt8)) : List (List UInt8) := if args = [] then [ascii "."] else args

/-- The program succeeds exactly if no directory is opened after a failed call; then every
directory is reported. Otherwise it stops with an error behind the whole listing of the first
directory that was opened nevertheless, or that cannot be read, and the rest is not looked at. -/
theorem main_output (strerror : ℤ → List UInt8) (dumpcore : Option (List UInt8))
    (policy : List UInt8 → ℕ) (opendir : List UInt8 → Except Errno Dir) (argv0 : List UInt8)
    {args : List (List UInt8)} (hhelp : args.head? ≠ some (ascii "--help")) {ending : Ending}
    {out : Output} (hmain : main strerror dumpcore policy opendir argv0 args = (ending, out)) :
    (ending = .exited 0 ↔ Clear opendir (dirsOf args)) ∧
      (ending = .exited 0 → out.file = (dirsOf args).flatMap (report strerror opendir)) ∧
      (ending ≠ .exited 0 → ∃ done d rest dir err msg, dirsOf args = done ++ d :: rest ∧
        Clear opendir done ∧ ¬ Clear opendir (done ++ [d]) ∧
        opendir d = .ok dir ∧ out.file = done.flatMap (report strerror opendir) ++
          (listing d dir ++ message strerror err msg)) := by
  have hloop : main strerror dumpcore policy opendir argv0 args =
      finish ((dirsOf args).foldlM (listFiles strerror dumpcore policy opendir) ⟨.empty, 0⟩) := by
    unfold main dirsOf
    simp only [if_neg hhelp]
    split_ifs <;> simp
  rw [hloop] at hmain
  rcases loop_cases strerror dumpcore policy opendir (dirsOf args) ⟨.empty, 0⟩ with
    ⟨q, hq, hprinted, hclear, -⟩ |
    ⟨r, done, d, rest, dir, err, msg, hr, hsplit, hdir, hfile, hexit, hclear, -, hwhy⟩
  · rw [hq] at hmain
    obtain ⟨rfl, rfl⟩ := Prod.mk.inj hmain
    refine ⟨by simp [hclear], fun _ => ?_, fun h => absurd rfl h⟩
    rw [Output.file_flush, hprinted]
    rfl
  · rw [hr] at hmain
    obtain rfl : r = (ending, out) := hmain
    have hfirst : ¬ Clear opendir (dirsOf args) := by
      intro hall
      have hrest : dirsOf args = (done ++ [d]) ++ rest := by simp [hsplit]
      rw [hrest] at hall
      exact hwhy rfl hall.of_append
    refine ⟨iff_of_false hexit hfirst, fun h => absurd h hexit, fun _ => ?_⟩
    exact ⟨done, d, rest, dir, err, msg, hsplit, hclear, hwhy rfl, hdir, hfile⟩

/-- There is no directory `a`, and `b` is empty. -/
def onlyB (dirpath : List UInt8) : Except Errno Dir :=
  if dirpath = [97] then .error ⟨2, by decide⟩ else .ok ⟨none, none, [], false, none⟩

/-- The listing of `b` ends with an error that was reported before it. -/
theorem main_output_stale :
    (main (fun _ => []) none (fun _ => 0) onlyB [] [[97], [98], [99]]).1 ≠ .exited 0 := by
  intro hexit
  have hmain := main_output (fun _ => []) none (fun _ => 0) onlyB [] (by decide)
    (Prod.eta (main (fun _ => []) none (fun _ => 0) onlyB [] [[97], [98], [99]])).symm
  obtain ⟨hfirst, -⟩ := List.pairwise_cons.mp (hmain.1.mp hexit).inOrder
  exact absurd (hfirst [98] (by simp) rfl) (by decide)

end TlpiExercises.ListFiles
