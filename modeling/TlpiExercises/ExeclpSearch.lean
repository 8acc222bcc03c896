import TlpiExercises.Execlp

/-!
# The search of `myexeclp` and the one of `execlp`

`execlp` takes the elements of `PATH` between the colons in their order, an empty one as the
current directory, and goes on to the next after ENOENT, EACCES and ENOTDIR. `myexeclp` gets
the elements from `strtok`, which passes over the empty ones, and for it ENOTDIR is one of the
errors that end the search.
-/
namespace TlpiExercises.Execlp
open CText

/-- The errors of `execve` that `execlp` tells apart. -/
inductive Failure where
  | enoent
  | eacces
  | enotdir
  | other
  deriving DecidableEq, Repr

inductive Outcome where
  | replaced
  | fails (failure : Failure)
  deriving DecidableEq, Repr

/-- What the test of `myexeclp` sees of an outcome. -/
def Outcome.seen : Outcome → ExecResult
  | .replaced => .replaced
  | .fails .enoent => .fails .enoent
  | .fails .eacces => .fails .eacces
  | .fails .enotdir | .fails .other => .fails .other

/-- The path `execlp` tries for an element of `PATH`. -/
def candidate (file element : List UInt8) : List UInt8 :=
  if element = [] then file else element ++ slash :: file

/-- `execlp` on the elements from the `k`-th call on: the paths it tries, and its end. -/
def execlp (execve : ℕ → List UInt8 → Outcome) (file : List UInt8) :
    ℕ → List (List UInt8) → List (List UInt8) × Ending
  | _, [] => ([], .returned (some (-1)))
  | k, e :: es =>
      match execve k (candidate file e) with
      | .replaced => ([candidate file e], .replaced)
      | .fails .other => ([candidate file e], .returned (some (-1)))
      | .fails .enoent | .fails .eacces | .fails .enotdir =>
          let rest := execlp execve file (k + 1) es
          (candidate file e :: rest.1, rest.2)

/-- No element that is tried is empty or too long for the array, and none but the last one
fails with ENOTDIR. -/
def Searchable (execve : ℕ → List UInt8 → Outcome) (file : List UInt8) :
    ℕ → List (List UInt8) → Prop
  | _, [] => True
  | k, e :: es =>
      e ≠ [] ∧ e.length + 1 + file.length < arraySize ∧
        match execve k (e ++ slash :: file) with
        | .replaced | .fails .other => True
        | .fails .enoent | .fails .eacces => Searchable execve file (k + 1) es
        | .fails .enotdir => es = []

/-- The elements that are left when this string is. -/
def Remaining (es : List (List UInt8)) (s : List UInt8) : Prop :=
  (es = [] ∧ s = []) ∨ es = s.splitOn colon

/-- The first element ends at the first colon. -/
theorem splitOn_cases {s e : List UInt8} {es : List (List UInt8)} (h : e :: es = s.splitOn colon) :
    colon ∉ e ∧ ((s = e ∧ es = []) ∨ ∃ t, s = e ++ colon :: t ∧ es = t.splitOn colon) := by
  by_cases hmem : colon ∈ s
  · obtain ⟨a, t, rfl, ha⟩ := List.eq_append_cons_of_mem hmem
    rw [List.splitOn_append_cons_self_of_not_mem ha] at h
    obtain ⟨rfl, rfl⟩ := List.cons.inj h
    exact ⟨ha, .inr ⟨t, rfl, rfl⟩⟩
  · rw [List.splitOn_eq_singleton hmem] at h
    obtain ⟨rfl, rfl⟩ := List.cons.inj h
    exact ⟨hmem, .inl ⟨rfl, rfl⟩⟩

/-- The parts `strtok` takes of a string that starts with an element. -/
theorem takeWhile_element {e : List UInt8} (he : e ≠ []) (hcolon : colon ∉ e) {rest : List UInt8}
    (hrest : rest = [] ∨ ∃ t, rest = colon :: t) :
    (e ++ rest).takeWhile (· = colon) = [] ∧ (e ++ rest).dropWhile (· = colon) = e ++ rest ∧
      (e ++ rest).takeWhile (· ≠ colon) = e := by
  obtain ⟨c, e, rfl⟩ := List.exists_cons_of_ne_nil he
  have hc : c ≠ colon := fun heq => hcolon (heq ▸ List.mem_cons_self)
  refine ⟨by simp [hc], by simp [hc], ?_⟩
  rcases hrest with rfl | ⟨t, rfl⟩
  · rw [List.append_nil, List.takeWhile_eq_self_iff]
    intro x hx
    exact decide_eq_true fun heq => hcolon (heq ▸ hx)
  · exact (span_ne hcolon t).1

/-- `strtok` returns an element that is not empty, and leaves the elements behind it. -/
theorem strtok_element {buf e : List UInt8} {o : ℕ} {es : List (List UInt8)}
    (h : e :: es = (cString (buf.drop o)).splitOn colon) (he : e ≠ []) :
    ∃ buf' saved, strtok buf o = (some e, buf', saved) ∧
      Remaining es (cString (buf'.drop saved)) := by
  obtain ⟨hcolon, hs⟩ := splitOn_cases h
  rcases hs with ⟨hs, rfl⟩ | ⟨t, hs, rfl⟩
  · obtain ⟨hskip, hdrop, htoken⟩ := takeWhile_element he hcolon (.inl rfl)
    rw [List.append_nil] at hskip hdrop htoken
    refine ⟨buf, o + e.length, ?_, .inl ⟨rfl, ?_⟩⟩
    · simp only [strtok, hs, hskip, hdrop, htoken, if_neg he]
      simp
    · rw [← List.drop_drop, cString_drop (by rw [hs]), hs, List.drop_length]
  · obtain ⟨hskip, hdrop, htoken⟩ := takeWhile_element he hcolon (.inr ⟨t, rfl⟩)
    refine ⟨buf.set (o + e.length) 0, o + e.length + 1, ?_, .inr ?_⟩
    · simp only [strtok, hs, hskip, hdrop, htoken, if_neg he]
      simp
    · rw [List.drop_set_of_lt (by omega), Nat.add_assoc, ← List.drop_drop,
        cString_drop (by rw [hs]; simp), hs]
      simp

section Search

variable (execve : ℕ → List UInt8 → Outcome) {environ : List ℕ} {args : List (List UInt8)}
  (file : List UInt8)

theorem execlp_cons_fst (k : ℕ) (e : List UInt8) (es : List (List UInt8)) :
    ∃ tried, (execlp execve file k (e :: es)).1 = candidate file e :: tried := by
  rw [execlp]
  split <;> exact ⟨_, rfl⟩

/-- Only without an element is nothing tried. -/
theorem execlp_fst_eq_nil_iff (k : ℕ) (es : List (List UInt8)) :
    (execlp execve file k es).1 = [] ↔ es = [] := by
  cases es with
  | nil => simp [execlp]
  | cons e es =>
      obtain ⟨tried, htried⟩ := execlp_cons_fst execve file k e es
      simp [htried]

theorem execlp_snd_ne_overflow (k : ℕ) (es : List (List UInt8)) :
    (execlp execve file k es).2 ≠ .overflow := by
  induction es generalizing k with
  | nil => simp [execlp]
  | cons e es ih =>
      rw [execlp]
      split
      · simp
      · simp
      all_goals exact ih (k + 1)

variable {execve file}

/-- Every path that `myexeclp` makes from an element has a slash. -/
theorem slash_mem_of_search {execve : ℕ → List UInt8 → ExecResult} {path fuel k o : ℕ}
    {ret : Option ℤ} {mem : Memory} {run : Run}
    (h : search execve environ args file path fuel k o ret mem = some run) :
    ∀ call ∈ run.calls, slash ∈ call.path := by
  induction fuel generalizing k o ret mem run with
  | zero => simp [search] at h
  | succ fuel ih =>
      rw [search] at h
      split at h
      · obtain rfl := (Option.some.inj h).symm
        simp
      · dsimp only at h
        split_ifs at h
        · obtain rfl := (Option.some.inj h).symm
          simp
        · split at h
          · obtain rfl := (Option.some.inj h).symm
            simp
          · obtain rfl := (Option.some.inj h).symm
            simp
          all_goals
            obtain ⟨rest, hrest, rfl⟩ := Option.map_eq_some_iff.mp h
            rintro call (_ | ⟨_, hcall⟩)
            · simp
            · exact ih hrest call hcall

/-- What `myexeclp` tries and how it ends is what `execlp` does. -/
def Agrees (r : Option Run) (spec : List (List UInt8) × Ending) : Prop :=
  ∃ run, r = some run ∧ (run.calls.map Call.path, run.ending) = spec

theorem agrees_some {run : Run} {spec : List (List UInt8) × Ending} :
    Agrees (some run) spec ↔ (run.calls.map Call.path, run.ending) = spec := by
  simp [Agrees]

/-- A call in front of both searches. -/
theorem agrees_cons {r : Option Run} {call : Call} {spec : List (List UInt8) × Ending} :
    Agrees (r.map fun run => { run with calls := call :: run.calls })
        (call.path :: spec.1, spec.2) ↔ Agrees r spec := by
  cases r with
  | none => simp [Agrees]
  | some run => simp [agrees_some, Prod.ext_iff]

/-- `execlp` tries the file itself for an empty element, `myexeclp` never does. -/
theorem not_agrees_of_empty (hslash : slash ∉ file) {seen : ℕ → List UInt8 → ExecResult}
    {es : List (List UInt8)} {path fuel k l o : ℕ} {ret : Option ℤ} {mem : Memory} :
    ¬ Agrees (search seen environ args file path fuel k o ret mem)
      (execlp execve file l ([] :: es)) := by
  rintro ⟨run, hrun, hspec⟩
  obtain ⟨tried, htried⟩ := execlp_cons_fst execve file l [] es
  have hpaths : run.calls.map Call.path = file :: tried := by
    rw [← hspec, candidate, if_pos rfl] at htried
    exact htried
  obtain ⟨call, hcall, heq⟩ := List.mem_map.mp (hpaths ▸ List.mem_cons_self)
  exact hslash (heq ▸ slash_mem_of_search hrun call hcall)

/-- After one path, the end of the search is the end of `execlp` only without a further
element. -/
theorem last_path_iff (path : List UInt8) (k : ℕ) (es : List (List UInt8)) :
    ([path], Ending.returned (some (-1))) =
        (path :: (execlp execve file k es).1, (execlp execve file k es).2) ↔ es = [] := by
  rw [← execlp_fst_eq_nil_iff execve file k es]
  constructor
  · intro hspec
    simpa using (congrArg (fun r => r.1.tail) hspec).symm
  · intro hnil
    rw [(execlp_fst_eq_nil_iff execve file k es).mp hnil]
    rfl

/-- From the elements that are left on, the two searches agree exactly if these are
searchable. -/
theorem search_agrees_iff (hslash : slash ∉ file) {es : List (List UInt8)} {path fuel k o : ℕ}
    {ret : Option ℤ} {mem : Memory} (hes : Remaining es (cString ((mem path).drop o)))
    (hret : es ≠ [] ∨ ret = some (-1)) (hfuel : (mem path).length - o < fuel) :
    Agrees (search (fun k p => (execve k p).seen) environ args file path fuel k o ret mem)
        (execlp execve file k es) ↔ Searchable execve file k es := by
  induction es generalizing k o ret mem fuel with
  | nil =>
      obtain ⟨fuel, rfl⟩ := Nat.exists_eq_succ_of_ne_zero (by omega : fuel ≠ 0)
      obtain ⟨-, hs⟩ := hes.resolve_right fun h => List.splitOn_ne_nil _ _ h.symm
      rw [search_of_colons _ _ _ (by rw [hs]; rfl), agrees_some, hret.resolve_left (by simp)]
      simp [execlp, Searchable]
  | cons e es ih =>
      obtain ⟨fuel, rfl⟩ := Nat.exists_eq_succ_of_ne_zero (by omega : fuel ≠ 0)
      by_cases he : e = []
      · subst he
        exact iff_of_false (not_agrees_of_empty hslash) (fun h => h.1 rfl)
      · have hsplit := hes.resolve_left (by simp)
        obtain ⟨buf, saved, htok, hrest⟩ := strtok_element hsplit he
        obtain ⟨hsaved, ho, hlen⟩ := strtok_some htok
        have hcandidate : candidate file e = e ++ slash :: file := if_neg he
        have hpath : (e ++ slash :: file).length = e.length + 1 + file.length := by
          simp
          omega
        simp only [search, htok, hpath]
        by_cases hsize : arraySize ≤ e.length + 1 + file.length
        · rw [if_pos hsize, agrees_some]
          refine iff_of_false ?_ (fun h => absurd h.2.1 (not_lt.mpr hsize))
          intro hspec
          exact execlp_snd_ne_overflow execve file k (e :: es) (Prod.ext_iff.mp hspec).2.symm
        · rw [if_neg hsize, Searchable, and_iff_right he, and_iff_right (not_le.mp hsize), execlp,
            hcandidate]
          have hmem : (Function.update mem path buf) path = buf := Function.update_self ..
          have hnext : Agrees (search (fun k p => (execve k p).seen) environ args file path fuel
              (k + 1) saved (some (-1)) (Function.update mem path buf))
                (execlp execve file (k + 1) es) ↔ Searchable execve file (k + 1) es :=
            ih (by rwa [hmem]) (.inr rfl) (by rw [hmem]; omega)
          cases hout : execve k (e ++ slash :: file) with
          | replaced => simp [Outcome.seen, agrees_some]
          | fails failure =>
              cases failure with
              | other => simp [Outcome.seen, agrees_some]
              | enotdir =>
                  simp only [Outcome.seen, agrees_some]
                  exact last_path_iff _ (k + 1) es
              | enoent => exact agrees_cons.trans hnext
              | eacces => exact agrees_cons.trans hnext

end Search

/-- The value of `PATH`. -/
def pathValue (mem : Memory) (path : ℕ) : List UInt8 := (cString (mem path)).drop pathEq.length

/-- `myexeclp` tries the files that `execlp` tries, and ends as it does, exactly if its arrays
are large enough and the elements of `PATH` are searchable. -/
theorem search_like_execlp_iff (execve : ℕ → List UInt8 → Outcome) (environ : List ℕ)
    (args : List (List UInt8)) (file : List UInt8) (hslash : slash ∉ file) (mem : Memory) (path : ℕ)
    (hpath : getenvPath mem environ = some path) :
    Agrees (myexeclp (fun k p => (execve k p).seen) environ args file mem)
        (execlp execve file 0 ((pathValue mem path).splitOn colon)) ↔
      file.length < arraySize ∧ args.length + 1 < arraySize ∧ environ.length < arraySize ∧
        Searchable execve file 0 ((pathValue mem path).splitOn colon) := by
  by_cases hsize : arraySize ≤ file.length ∨ arraySize ≤ args.length + 1 ∨
      arraySize ≤ environ.length
  · rw [myexeclp, if_pos hsize, agrees_some]
    refine iff_of_false ?_ (by omega)
    intro hspec
    exact execlp_snd_ne_overflow execve file 0 _ (Prod.ext_iff.mp hspec).2.symm
  · rw [myexeclp, if_neg hsize, if_neg hslash, hpath]
    have hvalue : pathValue mem path = cString ((mem path).drop pathEq.length) := by
      rw [pathValue, cString_drop (getenvPath_eq_some hpath).2]
    have hfit : file.length < arraySize ∧ args.length + 1 < arraySize ∧
        environ.length < arraySize := by omega
    rw [hvalue, and_iff_right hfit.1, and_iff_right hfit.2.1, and_iff_right hfit.2.2]
    exact search_agrees_iff hslash (.inr rfl) (.inl (List.splitOn_ne_nil _ _)) (by omega)

/-- Only this file can be executed. -/
def onlyFile (target : List UInt8) (failure : Failure) (_ : ℕ) (p : List UInt8) : Outcome :=
  if p = target then .replaced else .fails failure

/-- `PATH=/a:/b` with `ls` in `/b` only. -/
theorem search_like_execlp_iff_second :
    Agrees (myexeclp (fun k p => (onlyFile [47, 98, 47, 108, 115] .enoent k p).seen) [0] []
      [108, 115] fun _ => pathEq ++ [47, 97, 58, 47, 98, 0])
        ([[47, 97, 47, 108, 115], [47, 98, 47, 108, 115]], .replaced) := by
  have hsplit : (pathValue (fun _ => pathEq ++ [47, 97, 58, 47, 98, 0]) 0).splitOn colon =
      [[47, 97], [47, 98]] := by decide +kernel
  have hspec := search_like_execlp_iff (onlyFile [47, 98, 47, 108, 115] .enoent) [0] [] [108, 115]
    (by decide) (fun _ => pathEq ++ [47, 97, 58, 47, 98, 0]) 0 (by decide +kernel)
  rw [hsplit] at hspec
  exact hspec.mpr ⟨by decide, by decide, by decide, by simp [Searchable, onlyFile, arraySize]⟩

/-- With `PATH=:/b` the file in the current directory is passed over, with `PATH=/a:/b` and
ENOTDIR for `/a` the search ends there, and with an empty `PATH` the value returned was never
set. -/
theorem search_unlike_execlp :
    let paths := fun (r : Option Run) => r.map fun run => (run.calls.map Call.path, run.ending)
    paths (myexeclp (fun _ _ => Outcome.replaced.seen) [0] [] [108, 115]
        fun _ => pathEq ++ [58, 47, 98, 0]) = some ([[47, 98, 47, 108, 115]], .replaced) ∧
      execlp (fun _ _ => .replaced) [108, 115] 0 (List.splitOn colon [58, 47, 98]) =
        ([[108, 115]], .replaced) ∧
      paths (myexeclp (fun k p => (onlyFile [47, 98, 47, 108, 115] .enotdir k p).seen) [0] []
        [108, 115] fun _ => pathEq ++ [47, 97, 58, 47, 98, 0]) =
          some ([[47, 97, 47, 108, 115]], .returned (some (-1))) ∧
      execlp (onlyFile [47, 98, 47, 108, 115] .enotdir) [108, 115] 0
        (List.splitOn colon [47, 97, 58, 47, 98]) =
          ([[47, 97, 47, 108, 115], [47, 98, 47, 108, 115]], .replaced) ∧
      paths (myexeclp (fun _ _ => (Outcome.fails .enoent).seen) [0] [] [108, 115]
        fun _ => pathEq ++ [0]) = some ([], .returned none) ∧
      execlp (fun _ _ => .fails .enoent) [108, 115] 0 (List.splitOn colon []) =
        ([[108, 115]], .returned (some (-1))) := by
  decide +kernel

end TlpiExercises.Execlp
