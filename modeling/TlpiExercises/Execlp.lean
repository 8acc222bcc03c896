import Mathlib.Data.List.DropRight
import TlpiExercises.CText

/-!
# `execlp` on top of `execve`

The environment is a list of pointers to strings in memory, and `envp` is a copy of
the pointers. The search of `PATH` runs `strtok` on the string that defines `PATH`
itself, which writes a zero behind each element it returns. Copying more than an array
holds is undefined.
-/
namespace TlpiExercises.Execlp
open CText

/-- `'/'` and `':'`. -/
abbrev slash : UInt8 := 47
abbrev colon : UInt8 := 58

/-- The size of `args`, `envp`, `filename` and `filePath`. -/
abbrev arraySize : ℕ := 1000

/-- The strings in memory by their addresses; each ends at its first zero. -/
abbrev Memory := ℕ → List UInt8

/-- The strings that a list of pointers stands for. -/
def strings (mem : Memory) (ptrs : List ℕ) : List (List UInt8) := ptrs.map fun p => cString (mem p)

/-- `"PATH="`. -/
abbrev pathEq : List UInt8 := [80, 65, 84, 72, 61]

/-- `getenv("PATH")`: the string whose value, behind `PATH=`, is returned. -/
def getenvPath (mem : Memory) (environ : List ℕ) : Option ℕ :=
  environ.find? fun p => pathEq.isPrefixOf (cString (mem p))

/-- `basename`: the last component, without trailing slashes. -/
def basename (path : List UInt8) : List UInt8 :=
  if path = [] then [46]
  else
    let trimmed := path.rdropWhile (· = slash)
    if trimmed = [] then [slash] else trimmed.rtakeWhile (· ≠ slash)

/-- `strtok(_, ":")` from position `o` of a string: the token, the string afterwards,
and the position where the next call goes on. -/
def strtok (buf : List UInt8) (o : ℕ) : Option (List UInt8) × List UInt8 × ℕ :=
  let s := cString (buf.drop o)
  let skip := (s.takeWhile (· = colon)).length
  let token := (s.dropWhile (· = colon)).takeWhile (· ≠ colon)
  let stop := o + skip + token.length
  if token = [] then (none, buf, o + skip)
  else if skip + token.length < s.length then (some token, buf.set stop 0, stop + 1)
  else (some token, buf, stop)

inductive Errno where
  | enoent
  | eacces
  | other
  deriving DecidableEq, Repr

/-- What a call of `execve` does: it replaces the program, or fails. -/
inductive ExecResult where
  | replaced
  | fails (errno : Errno)
  deriving DecidableEq, Repr

/-- The arguments of a call of `execve`. -/
structure Call where
  path : List UInt8
  argv : List (List UInt8)
  envp : List (List UInt8)
  deriving DecidableEq, Repr

/-- How `myexeclp` ends: the program is replaced, it returns (`ret` may not have been
set), the process is killed by a null pointer, or an array overflows. -/
inductive Ending where
  | replaced
  | returned (ret : Option ℤ)
  | killed
  | overflow
  deriving DecidableEq, Repr

/-- The calls of `execve`, the memory afterwards, and the end. -/
structure Run where
  calls : List Call
  mem : Memory
  ending : Ending

section Search

variable (execve : ℕ → List UInt8 → ExecResult) (environ : List ℕ) (args : List (List UInt8))
  (file : List UInt8)

/-- The loop over the elements of `PATH`, whose string is at `path`, for at most so many
iterations; `k` calls were made before, and `strtok` goes on at `o`. -/
def search (path : ℕ) : ℕ → ℕ → ℕ → Option ℤ → Memory → Option Run
  | 0, _, _, _, _ => none
  | fuel + 1, k, o, ret, mem =>
      match strtok (mem path) o with
      | (none, _, _) => some ⟨[], mem, .returned ret⟩
      | (some pathPrefix, buf, saved) =>
          let mem := Function.update mem path buf
          let filePath := pathPrefix ++ slash :: file
          if arraySize ≤ filePath.length then some ⟨[], mem, .overflow⟩
          else
            let call : Call := ⟨filePath, args, strings mem environ⟩
            match execve k filePath with
            | .replaced => some ⟨[call], mem, .replaced⟩
            | .fails .other => some ⟨[call], mem, .returned (some (-1))⟩
            | .fails .enoent | .fails .eacces =>
                (search path fuel (k + 1) saved (some (-1)) mem).map fun r =>
                  { r with calls := call :: r.calls }

/-- `myexeclp(file, args…, NULL)`. Without `PATH` the first `strtok` gets a null pointer
and has no string to go on with. -/
def myexeclp (mem : Memory) : Option Run :=
  if arraySize ≤ file.length ∨ arraySize ≤ args.length + 1 ∨ arraySize ≤ environ.length then
    some ⟨[], mem, .overflow⟩
  else
    let args := basename file :: args
    if slash ∈ file then
      let call : Call := ⟨file, args, strings mem environ⟩
      match execve 0 file with
      | .replaced => some ⟨[call], mem, .replaced⟩
      | .fails _ => some ⟨[call], mem, .returned (some (-1))⟩
    else
      match getenvPath mem environ with
      | none => some ⟨[], mem, .killed⟩
      | some path =>
          search execve environ args file path ((mem path).length + 1) 0 pathEq.length none mem

end Search

/-- Every call of `execve` gets the environment as it was, and so does the caller when
`myexeclp` returns. -/
def EnvironKept (mem : Memory) (environ : List ℕ) (r : Option Run) : Prop :=
  ∃ run, r = some run ∧ run.ending ≠ .overflow ∧
    (∀ call ∈ run.calls, call.envp = strings mem environ) ∧
    ∀ ret, run.ending = .returned ret → strings run.mem environ = strings mem environ

/-- The value of `PATH` from its first byte that is not a colon on. -/
def elements (s : List UInt8) : List UInt8 := (s.drop pathEq.length).dropWhile (· = colon)

/-- The arrays are large enough, and the search either is not made or finds at most one
element that no colon follows. -/
def Harmless (mem : Memory) (environ : List ℕ) (args : List (List UInt8)) (file : List UInt8) :
    Prop :=
  file.length < arraySize ∧ args.length + 1 < arraySize ∧ environ.length < arraySize ∧
    (slash ∈ file ∨ ∀ path ∈ getenvPath mem environ,
      colon ∉ elements (cString (mem path)) ∧
        (elements (cString (mem path)) = [] ∨
          (elements (cString (mem path))).length + 1 + file.length < arraySize))

/-- The bytes of a string are those before the zero that ends it. -/
theorem exists_rest (buf : List UInt8) :
    ∃ rest, buf = cString buf ++ rest ∧ (rest = [] ∨ ∃ r, rest = 0 :: r) := by
  refine ⟨buf.dropWhile (· ≠ 0), (List.takeWhile_append_dropWhile).symm, ?_⟩
  cases hrest : buf.dropWhile (fun c => decide (c ≠ 0)) with
  | nil => exact .inl rfl
  | cons c r =>
      have hne : buf.dropWhile (fun c => decide (c ≠ 0)) ≠ [] := by
        rw [hrest]
        exact List.cons_ne_nil c r
      have hc := List.head_dropWhile_not _ hne
      simp only [hrest, List.head_cons, decide_eq_false_iff_not, not_not] at hc
      exact .inr ⟨r, by rw [hc]⟩

theorem cString_append_rest {t rest : List UInt8} (ht : 0 ∉ t) (h : rest = [] ∨ ∃ r, rest = 0 :: r) :
    cString (t ++ rest) = t := by
  rcases h with rfl | ⟨r, rfl⟩
  · rw [List.append_nil, cString_eq_self ht]
  · exact (span_ne ht r).1

/-- A string read from its middle. -/
theorem cString_drop {buf : List UInt8} {o : ℕ} (h : o ≤ (cString buf).length) :
    cString (buf.drop o) = (cString buf).drop o := by
  obtain ⟨rest, hbuf, hrest⟩ := exists_rest buf
  have hdrop : buf.drop o = (cString buf).drop o ++ rest := by
    conv_lhs => rw [hbuf]
    rw [List.drop_append_of_le_length h]
  rw [hdrop]
  exact cString_append_rest (fun hmem => zero_notMem_cString buf (List.mem_of_mem_drop hmem)) hrest

/-- A string with a zero written inside it is another string. -/
theorem cString_set_ne {buf : List UInt8} {k : ℕ} (h : k < (cString buf).length) :
    cString (buf.set k 0) ≠ cString buf := by
  intro heq
  obtain ⟨rest, hbuf, -⟩ := exists_rest buf
  obtain ⟨rest', hset, -⟩ := exists_rest (buf.set k 0)
  have hlt : k < buf.length := by
    rw [hbuf, List.length_append]
    omega
  have hget : (buf.set k 0)[k]? = some 0 := by simp [hlt]
  rw [hset, heq, List.getElem?_append_left h] at hget
  exact zero_notMem_cString buf (List.mem_of_getElem? hget)

/-- The leading colons of a string, and the rest. -/
theorem length_colons (str : List UInt8) :
    (str.takeWhile (· = colon)).length + (str.dropWhile (· = colon)).length = str.length := by
  rw [← List.length_append, List.takeWhile_append_dropWhile]

section Strtok

variable {buf : List UInt8} {o : ℕ}

/-- Nothing but colons: no token. -/
theorem strtok_none (h : (cString (buf.drop o)).dropWhile (· = colon) = []) :
    (strtok buf o).1 = none := by
  simp [strtok, h]

/-- An element that no colon follows is returned and nothing is written. -/
theorem strtok_last {token : List UInt8}
    (h : (cString (buf.drop o)).dropWhile (· = colon) = token) (hne : token ≠ [])
    (hcolon : colon ∉ token) :
    strtok buf o = (some token, buf, o + (cString (buf.drop o)).length) := by
  have hall : token.takeWhile (· ≠ colon) = token := by
    rw [List.takeWhile_eq_self_iff]
    intro c hc
    have hcc : c ≠ colon := fun heq => hcolon (heq ▸ hc)
    simpa using hcc
  have hlen := length_colons (cString (buf.drop o))
  rw [h] at hlen
  simp only [strtok, h, hall, if_neg hne]
  rw [if_neg (by omega), add_assoc, hlen]

/-- An element that a colon follows is not empty and ends before the string does. -/
theorem takeWhile_of_colon {l : List UInt8} (h : colon ∈ l.dropWhile (· = colon)) :
    (l.dropWhile (· = colon)).takeWhile (· ≠ colon) ≠ [] ∧
      ((l.dropWhile (· = colon)).takeWhile (· ≠ colon)).length <
        (l.dropWhile (· = colon)).length := by
  have hne : l.dropWhile (· = colon) ≠ [] := List.ne_nil_of_mem h
  have hhead := List.head_dropWhile_not _ hne
  have hpre := List.takeWhile_prefix (l := l.dropWhile (· = colon)) (fun c => decide (c ≠ colon))
  constructor
  · cases hl : l.dropWhile (fun c => decide (c = colon)) with
    | nil => exact absurd hl hne
    | cons c r =>
        simp only [hl, List.head_cons, decide_eq_false_iff_not] at hhead
        simp [hhead]
  · refine lt_of_le_of_ne hpre.length_le fun hlen => ?_
    rw [← hpre.eq_of_length hlen] at h
    simpa using List.mem_takeWhile_imp h

/-- Behind an element that a colon follows a zero is written. -/
theorem strtok_colon (h : colon ∈ (cString (buf.drop o)).dropWhile (· = colon)) :
    ∃ token k saved, strtok buf o = (some token, buf.set k 0, saved) ∧
      o ≤ k ∧ k < o + (cString (buf.drop o)).length := by
  have hlen := length_colons (cString (buf.drop o))
  obtain ⟨hne, hshort⟩ := takeWhile_of_colon h
  simp only [strtok, if_neg hne]
  rw [if_pos (by omega)]
  exact ⟨_, _, _, rfl, by omega, by omega⟩

/-- A token lies inside the string, the next call goes on behind it, and the string
stays as long as it was. -/
theorem strtok_some {token buf' : List UInt8} {saved : ℕ}
    (h : strtok buf o = (some token, buf', saved)) :
    o < saved ∧ o < buf.length ∧ buf'.length = buf.length := by
  have hs : (cString (buf.drop o)).length ≤ buf.length - o := by
    rw [← List.length_drop]
    exact (List.takeWhile_prefix _).length_le
  have hlen := length_colons (cString (buf.drop o))
  have hpre : (((cString (buf.drop o)).dropWhile (· = colon)).takeWhile (· ≠ colon)).length ≤
      ((cString (buf.drop o)).dropWhile (· = colon)).length :=
    (List.takeWhile_prefix _).length_le
  simp only [strtok] at h
  split_ifs at h with hnil hstop
  · simp at h
  all_goals
    have hpos := List.length_pos_iff.mpr hnil
    simp only [Prod.mk.injEq, Option.some.injEq] at h
    obtain ⟨-, rfl, rfl⟩ := h
    refine ⟨by omega, by omega, by simp⟩

end Strtok

section Search

variable (execve : ℕ → List UInt8 → ExecResult) (environ : List ℕ) (args : List (List UInt8))
  (file : List UInt8)

/-- Every iteration of the search goes on further behind, so it ends. -/
theorem search_isSome (path fuel k o : ℕ) (ret : Option ℤ) (mem : Memory)
    (h : (mem path).length - o < fuel) :
    (search execve environ args file path fuel k o ret mem).isSome := by
  induction fuel generalizing k o ret mem with
  | zero => omega
  | succ fuel ih =>
      rw [search]
      split
      case h_1 => rfl
      case h_2 pathPrefix buf saved htok =>
        obtain ⟨hsaved, ho, hlen⟩ := strtok_some htok
        have hrest : (Function.update mem path buf path).length - saved < fuel := by
          rw [Function.update_self]
          omega
        dsimp only
        split_ifs
        · rfl
        · split <;> simp [ih _ _ _ _ hrest]

/-- Every call comes to an end. -/
theorem myexeclp_isSome (mem : Memory) : (myexeclp execve environ args file mem).isSome := by
  simp only [myexeclp]
  split_ifs
  · rfl
  · split <;> rfl
  · split
    · rfl
    · exact search_isSome _ _ _ _ _ _ _ _ _ _ (by omega)

variable {environ}

theorem getenvPath_eq_some {mem : Memory} {path : ℕ} (h : getenvPath mem environ = some path) :
    path ∈ environ ∧ pathEq.length ≤ (cString (mem path)).length := by
  refine ⟨List.mem_of_find?_eq_some h, ?_⟩
  have hpre := List.find?_some h
  exact (List.isPrefixOf_iff_prefix.mp hpre).length_le

/-- Writing into one of the environment's strings changes the environment. -/
theorem strings_update_ne {mem : Memory} {path : ℕ} {buf : List UInt8} (hpath : path ∈ environ)
    (hbuf : cString buf ≠ cString (mem path)) :
    strings (Function.update mem path buf) environ ≠ strings mem environ := by
  intro heq
  have hat := List.map_inj_left.mp heq path hpath
  rw [Function.update_self] at hat
  exact hbuf hat

variable {path fuel k : ℕ} {ret : Option ℤ} {mem : Memory}

/-- With a colon behind the first element, the first candidate already gets another
environment. -/
theorem not_environKept_search (hpath : path ∈ environ)
    (hlen : pathEq.length ≤ (cString (mem path)).length)
    (hcolon : colon ∈ elements (cString (mem path))) :
    ¬EnvironKept mem environ
      (search execve environ args file path fuel k pathEq.length ret mem) := by
  rintro ⟨run, hrun, hover, hcalls, -⟩
  cases fuel with
  | zero => simp [search] at hrun
  | succ fuel =>
      rw [elements, ← cString_drop hlen] at hcolon
      obtain ⟨token, stop, saved, htok, -, hstop⟩ := strtok_colon hcolon
      rw [cString_drop hlen, List.length_drop] at hstop
      have hset : cString ((mem path).set stop 0) ≠ cString (mem path) :=
        cString_set_ne (by omega)
      have hne := strings_update_ne hpath hset
      simp only [search, htok] at hrun
      split_ifs at hrun with hsize
      · cases hrun
        exact hover rfl
      · split at hrun
        · cases hrun
          exact hne (hcalls _ (List.mem_singleton_self _))
        · cases hrun
          exact hne (hcalls _ (List.mem_singleton_self _))
        all_goals
          obtain ⟨rest, -, rfl⟩ := Option.map_eq_some_iff.mp hrun
          exact hne (hcalls _ List.mem_cons_self)

/-- Nothing but colons left: the loop is over. -/
theorem search_of_colons {o : ℕ} (h : (cString ((mem path).drop o)).dropWhile (· = colon) = []) :
    search execve environ args file path (fuel + 1) k o ret mem =
      some ⟨[], mem, .returned ret⟩ := by
  have hnone := strtok_none h
  rw [search]
  split
  case h_1 => rfl
  case h_2 htok =>
    rw [htok] at hnone
    cases hnone

/-- The loop on a `PATH` with one element that no colon follows. -/
theorem search_of_last (hlen : pathEq.length ≤ (cString (mem path)).length)
    (hne : elements (cString (mem path)) ≠ [])
    (hcolon : colon ∉ elements (cString (mem path))) :
    search execve environ args file path (fuel + 2) k pathEq.length ret mem =
      let filePath := elements (cString (mem path)) ++ slash :: file
      if arraySize ≤ filePath.length then some ⟨[], mem, .overflow⟩
      else some ⟨[⟨filePath, args, strings mem environ⟩], mem,
        if execve k filePath = .replaced then .replaced else .returned (some (-1))⟩ := by
  have hdrop : (cString ((mem path).drop pathEq.length)).dropWhile (· = colon) =
      elements (cString (mem path)) := by
    rw [cString_drop hlen, elements]
  have hend : pathEq.length + (cString ((mem path).drop pathEq.length)).length =
      (cString (mem path)).length := by
    rw [cString_drop hlen, List.length_drop]
    omega
  have hover : (cString ((mem path).drop (cString (mem path)).length)).dropWhile (· = colon) =
      [] := by
    rw [cString_drop le_rfl, List.drop_length, List.dropWhile_nil]
  rw [search, strtok_last hdrop hne hcolon, hend]
  simp only [Function.update_eq_self, search_of_colons execve args file hover, Option.map_some]
  split_ifs with hsize hexec
  · rfl
  · simp [hexec]
  · split <;> simp_all

theorem environKept_some {run : Run} :
    EnvironKept mem environ (some run) ↔ run.ending ≠ .overflow ∧
      (∀ call ∈ run.calls, call.envp = strings mem environ) ∧
      ∀ ret, run.ending = .returned ret → strings run.mem environ = strings mem environ := by
  simp [EnvironKept]

/-- The search keeps the environment exactly when it meets no colon behind an element. -/
theorem environKept_search_iff (hpath : path ∈ environ)
    (hlen : pathEq.length ≤ (cString (mem path)).length) :
    EnvironKept mem environ
        (search execve environ args file path (fuel + 2) k pathEq.length ret mem) ↔
      colon ∉ elements (cString (mem path)) ∧
        (elements (cString (mem path)) = [] ∨
          (elements (cString (mem path))).length + 1 + file.length < arraySize) := by
  by_cases hcolon : colon ∈ elements (cString (mem path))
  · simp only [hcolon, not_true_eq_false, false_and, iff_false]
    exact not_environKept_search execve args file hpath hlen hcolon
  by_cases hne : elements (cString (mem path)) = []
  · have hnil : (cString ((mem path).drop pathEq.length)).dropWhile (· = colon) = [] := by
      rw [cString_drop hlen]
      exact hne
    rw [search_of_colons execve args file hnil, environKept_some]
    simp [hne]
  · rw [search_of_last execve args file hlen hne hcolon]
    dsimp only
    split_ifs with hsize hexec
    · have hlong : ¬(elements (cString (mem path))).length + 1 + file.length < arraySize := by
        rw [List.length_append, List.length_cons] at hsize
        omega
      simp [environKept_some, hne, hlong]
    all_goals
      have hshort : (elements (cString (mem path))).length + 1 + file.length < arraySize := by
        rw [List.length_append, List.length_cons] at hsize
        omega
      simp [environKept_some, hcolon, hshort]

end Search

/-- Exactly the harmless calls hand every candidate the caller's environment and leave
it as it is. -/
theorem environ_kept_iff (execve : ℕ → List UInt8 → ExecResult) (environ : List ℕ)
    (args : List (List UInt8)) (file : List UInt8) (mem : Memory) :
    EnvironKept mem environ (myexeclp execve environ args file mem) ↔
      Harmless mem environ args file := by
  by_cases hsize : arraySize ≤ file.length ∨ arraySize ≤ args.length + 1 ∨
      arraySize ≤ environ.length
  · have hrun : myexeclp execve environ args file mem = some ⟨[], mem, .overflow⟩ := if_pos hsize
    rw [hrun, environKept_some, Harmless]
    simp only [ne_eq, not_true_eq_false, false_and, false_iff]
    omega
  have hfit : file.length < arraySize ∧ args.length + 1 < arraySize ∧
      environ.length < arraySize := by omega
  rw [Harmless, ← and_assoc, ← and_assoc, and_assoc (a := file.length < arraySize),
    and_iff_right hfit]
  by_cases hslash : slash ∈ file
  · rw [myexeclp, if_neg hsize, if_pos hslash]
    dsimp only
    split <;> simp [environKept_some, hslash]
  · rw [myexeclp, if_neg hsize, if_neg hslash, or_iff_right hslash]
    cases hpath : getenvPath mem environ with
    | none => simp [environKept_some]
    | some path =>
        obtain ⟨hmem, hlen⟩ := getenvPath_eq_some hpath
        have hpos : (mem path).length + 1 = (mem path).length - 1 + 2 := by
          have hle : (cString (mem path)).length ≤ (mem path).length :=
            (List.takeWhile_prefix _).length_le
          simp only [List.length_cons, List.length_nil] at hlen
          omega
        simp only [Option.mem_some_iff, forall_eq', hpos]
        exact environKept_search_iff execve _ file hmem hlen

/-- `PATH=/a:/b` and a file that is in neither: both candidates, and the caller afterwards,
have `PATH=/a`. -/
theorem path_cut_short :
    let mem : Memory := fun _ => pathEq ++ [47, 97, 58, 47, 98, 0]
    let result := myexeclp (fun _ _ => .fails .enoent) [0] [] [108, 115] mem
    (result.map fun run => (run.calls.map Call.envp, strings run.mem [0])) =
        some ([[pathEq ++ [47, 97]], [pathEq ++ [47, 97]]], [pathEq ++ [47, 97]]) ∧
      strings mem [0] = [pathEq ++ [47, 97, 58, 47, 98]] ∧ ¬EnvironKept mem [0] result := by
  intro mem result
  have hrun : (result.map fun run => (run.calls.map Call.envp, strings run.mem [0])) =
      some ([[pathEq ++ [47, 97]], [pathEq ++ [47, 97]]], [pathEq ++ [47, 97]]) := by
    decide +kernel
  have hmem : strings mem [0] = [pathEq ++ [47, 97, 58, 47, 98]] := by decide +kernel
  refine ⟨hrun, hmem, ?_⟩
  rintro ⟨run, heq, -, hcalls, -⟩
  rw [heq, Option.map_some, Option.some.injEq, Prod.mk.injEq] at hrun
  have hfirst : [pathEq ++ [47, 97]] ∈ run.calls.map Call.envp := by
    rw [hrun.1]
    exact List.mem_cons_self
  obtain ⟨call, hcall, henv⟩ := List.mem_map.mp hfirst
  rw [hcalls call hcall, hmem] at henv
  exact absurd henv (by decide)

end TlpiExercises.Execlp
