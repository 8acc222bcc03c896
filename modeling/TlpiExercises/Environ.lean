import Mathlib.Data.List.Find
import Mathlib.Data.List.TakeWhile
import TlpiExercises.KeyedList

/-!
# Setting and unsetting environment variables

The environment is the array of string pointers `environ` points to, up to its
terminating NULL. `myunsetenv` removes entries in place by shifting the rest of
the array down; `mysetenv` removes and then calls `putenv`. The array is the
list of its cells from `environ` on, and a walk that would leave it fails.
-/
namespace TlpiExercises.Environ

/-- The bytes of a C string, without its terminating zero. -/
abbrev CStr := List UInt8

/-- `'='`. -/
abbrev eqSign : UInt8 := 61

/-- `strncmp(a, b, n) == 0`. -/
def strncmpEq (a b : CStr) (n : ℕ) : Bool := (a ++ [0]).take n = (b ++ [0]).take n

/-- The test `strncmp(name, *p, len) == 0 && (*p)[len] == '='`. -/
def defines (name entry : CStr) : Bool :=
  strncmpEq name entry name.length && (entry ++ [0])[name.length]? == some eqSign

/-- `for (p1 = p; *p1 != NULL; p1++) *p1 = *(p1 + 1);` on the cells from `p`. -/
def shiftDown : List (Option CStr) → Option (List (Option CStr))
  | [] => none
  | none :: cs => some (none :: cs)
  | some _ :: [] => none
  | some _ :: c :: cs => (shiftDown (c :: cs)).map (c :: ·)

/-- The outer loop of `myunsetenv` on the cells from `p`, for at most so many
iterations. After a removal the loop goes on at `p + 1`. -/
def unsetLoop (name : CStr) : ℕ → List (Option CStr) → Option (List (Option CStr))
  | 0, _ => none
  | _ + 1, [] => none
  | _ + 1, none :: cs => some (none :: cs)
  | fuel + 1, some e :: cs =>
      if defines name e then
        match cs with
        | [] => none
        | c :: cs' =>
            match shiftDown (c :: c :: cs') with
            | some (d :: ds) => (unsetLoop name fuel ds).map (d :: ·)
            | _ => none
      else (unsetLoop name fuel cs).map (some e :: ·)

def myunsetenv (name : CStr) (environ : List (Option CStr)) : Option (List (Option CStr)) :=
  unsetLoop name environ.length environ

/-- The entries before the terminating NULL. -/
def entries : List (Option CStr) → List CStr
  | some e :: cs => e :: entries cs
  | _ => []

/-- The part of an entry before its first `'='`. -/
def entryName (e : CStr) : CStr := e.takeWhile (· ≠ eqSign)

/-- `getenv`: the value of the first entry for `name`. -/
def getenv (name : CStr) (environ : List (Option CStr)) : Option CStr :=
  ((entries environ).find? (defines name)).map (List.drop (name.length + 1))

/-- `putenv`: replace the first entry with the name of `s`, or append `s`. -/
def putEntry (s : CStr) : List CStr → List CStr
  | [] => [s]
  | e :: es => if defines (entryName s) e then s :: es else e :: putEntry s es

def putenv (s : CStr) (environ : List (Option CStr)) : List (Option CStr) :=
  (putEntry s (entries environ)).map some ++ [none]

/-- `mysetenv`: the return value and the new environment. `mallocOk` says whether
`malloc` succeeds if it is called. -/
def mysetenv (name value : CStr) (overwrite : ℤ) (mallocOk : Bool)
    (environ : List (Option CStr)) : Option (ℤ × List (Option CStr)) :=
  if overwrite = 0 ∧ getenv name environ ≠ none then some (0, environ)
  else if mallocOk = false then some (-1, environ)
  else
    let buf := name ++ eqSign :: value
    (myunsetenv name environ).map fun environ => (0, putenv buf environ)

/-- What the loop of `myunsetenv` leaves of a list of entries. It never tests
the entry that a removal moves into the removed place. -/
def unsetEntries (name : CStr) : List CStr → List CStr
  | [] => []
  | [e] => if defines name e then [] else [e]
  | e :: x :: es =>
      if defines name e then x :: unsetEntries name es else e :: unsetEntries name (x :: es)

theorem unsetEntries_length_le (name : CStr) (es : List CStr) :
    (unsetEntries name es).length ≤ es.length := by
  induction es using unsetEntries.induct name with
  | case1 => simp [unsetEntries]
  | case2 e h => simp [unsetEntries, h]
  | case3 e h => simp [unsetEntries, h]
  | case4 e x es h ih => simp [unsetEntries, h]; omega
  | case5 e x es h ih => simpa [unsetEntries, h] using ih

theorem shiftDown_some (e : CStr) (es : List CStr) (junk : List (Option CStr)) :
    shiftDown (some e :: (es.map some ++ none :: junk)) =
      some (es.map some ++ none :: none :: junk) := by
  induction es generalizing e with
  | nil => rfl
  | cons x es ih => simp [shiftDown, ih]

/-- The effect of the loop: the array keeps its length, and the cells the
entries gave up are NULL. -/
theorem unsetLoop_eq (name : CStr) (es : List CStr) (junk : List (Option CStr)) (fuel : ℕ)
    (hfuel : es.length < fuel) :
    unsetLoop name fuel (es.map some ++ none :: junk) =
      some ((unsetEntries name es).map some ++ none ::
        (List.replicate (es.length - (unsetEntries name es).length) none ++ junk)) := by
  obtain ⟨fuel, rfl⟩ := Nat.exists_eq_succ_of_ne_zero (by omega : fuel ≠ 0)
  induction es using unsetEntries.induct name generalizing junk fuel with
  | case1 => simp [unsetLoop, unsetEntries]
  | case2 e h =>
      obtain ⟨fuel, rfl⟩ := Nat.exists_eq_succ_of_ne_zero (by simp at hfuel; omega : fuel ≠ 0)
      simp [unsetLoop, unsetEntries, h, shiftDown]
  | case3 e h =>
      obtain ⟨fuel, rfl⟩ := Nat.exists_eq_succ_of_ne_zero (by simp at hfuel; omega : fuel ≠ 0)
      simp [unsetLoop, unsetEntries, h]
  | case4 e x es h ih =>
      obtain ⟨fuel, rfl⟩ := Nat.exists_eq_succ_of_ne_zero (by simp at hfuel; omega : fuel ≠ 0)
      -- the entry behind the removed one is shifted into its place and skipped
      have hshift : shiftDown (some x :: some x :: (es.map some ++ none :: junk)) =
          some (some x :: (es.map some ++ none :: none :: junk)) := shiftDown_some x (x :: es) junk
      have hrec := ih (none :: junk) fuel (by simp at hfuel; omega)
      have hle := unsetEntries_length_le name es
      rw [unsetEntries, if_pos h]
      simp only [List.map_cons, List.cons_append, unsetLoop, if_pos h, hshift]
      rw [hrec]
      simp [Nat.succ_sub hle, List.replicate_succ']
  | case5 e x es h ih =>
      obtain ⟨fuel, rfl⟩ := Nat.exists_eq_succ_of_ne_zero (by simp at hfuel; omega : fuel ≠ 0)
      have hrec := ih junk fuel (by simp at hfuel ⊢; omega)
      rw [unsetEntries, if_neg h]
      simp only [List.map_cons, List.cons_append, unsetLoop, if_neg h] at hrec ⊢
      rw [hrec]
      simp

theorem entries_split {environ : List (Option CStr)} (h : none ∈ environ) :
    ∃ junk, environ = (entries environ).map some ++ none :: junk := by
  induction environ with
  | nil => simp at h
  | cons c cs ih =>
      cases c with
      | none => exact ⟨cs, rfl⟩
      | some e =>
          obtain ⟨junk, hjunk⟩ := ih (by simpa using h)
          exact ⟨junk, by simp only [entries, List.map_cons, List.cons_append, ← hjunk]⟩

@[simp] theorem entries_terminated (es : List CStr) (junk : List (Option CStr)) :
    entries (es.map some ++ none :: junk) = es := by
  induction es with
  | nil => rfl
  | cons e es ih => simp [entries, ih]

/-- On a terminated array `myunsetenv` returns a terminated array of the same
length. -/
theorem myunsetenv_eq (name : CStr) {environ : List (Option CStr)} (h : none ∈ environ) :
    ∃ environ', myunsetenv name environ = some environ' ∧ none ∈ environ' ∧
      environ'.length = environ.length ∧
      entries environ' = unsetEntries name (entries environ) := by
  obtain ⟨junk, hjunk⟩ := entries_split h
  have hlen := congrArg List.length hjunk
  simp only [List.length_append, List.length_map, List.length_cons] at hlen
  have hrun := unsetLoop_eq name (entries environ) junk environ.length (by omega)
  rw [← hjunk] at hrun
  have hle := unsetEntries_length_le name (entries environ)
  refine ⟨_, hrun, by simp, ?_, by simp⟩
  simp
  omega

/-- The test accepts exactly the entries `name=...`; no longer name with this
prefix and no shorter one passes. -/
theorem defines_iff {name e : CStr} : defines name e ↔ ∃ v, e = name ++ eqSign :: v := by
  constructor
  · intro h
    simp only [defines, strncmpEq, Bool.and_eq_true, decide_eq_true_eq, beq_iff_eq] at h
    obtain ⟨hpre, hat⟩ := h
    have hlt : name.length < e.length := by
      by_contra hge
      have hle : e.length ≤ name.length := by omega
      rw [List.getElem?_append_right hle] at hat
      cases hk : name.length - e.length with
      | zero => simp [hk, eqSign] at hat
      | succ k => simp [hk] at hat
    rw [List.take_left, List.take_append_of_le_length hlt.le] at hpre
    rw [List.getElem?_append_left hlt] at hat
    refine ⟨e.drop (name.length + 1), ?_⟩
    obtain ⟨hlt', hget⟩ := List.getElem?_eq_some_iff.mp hat
    conv_lhs => rw [← List.take_append_drop name.length e, List.drop_eq_getElem_cons hlt', hget]
    rw [← hpre]
  · rintro ⟨v, rfl⟩
    simp [defines, strncmpEq]

theorem entryName_append {name : CStr} (h : eqSign ∉ name) (v : CStr) :
    entryName (name ++ eqSign :: v) = name := by
  have hall : ∀ c ∈ name, decide (c ≠ eqSign) = true := by
    intro c hc
    have hne : c ≠ eqSign := fun he => h (he ▸ hc)
    simpa using hne
  rw [entryName, List.takeWhile_append_of_pos hall]
  simp

theorem entry_split {e : CStr} (h : eqSign ∈ e) : ∃ v, e = entryName e ++ eqSign :: v := by
  obtain ⟨name, v, rfl, hname⟩ := List.eq_append_cons_of_mem h
  exact ⟨v, by rw [entryName_append hname]⟩

/-- On a well formed entry the test compares names. -/
theorem defines_iff_entryName {name e : CStr} (hname : eqSign ∉ name) (he : eqSign ∈ e) :
    defines name e ↔ entryName e = name := by
  rw [defines_iff]
  constructor
  · rintro ⟨v, rfl⟩
    exact entryName_append hname v
  · rintro rfl
    exact entry_split he

/-- A terminated list of entries `name=value` with distinct names. -/
structure WellFormed (environ : List (Option CStr)) : Prop where
  terminated : none ∈ environ
  form : ∀ e ∈ entries environ, eqSign ∈ e
  distinct : ((entries environ).map entryName).Nodup

/-- With distinct names the loop removes exactly the entry for `name`. -/
theorem unsetEntries_eq_dropKey {name : CStr} (hname : eqSign ∉ name) {es : List CStr}
    (hform : ∀ e ∈ es, eqSign ∈ e) (hdistinct : (es.map entryName).Nodup) :
    unsetEntries name es = KeyedList.dropKey entryName es name := by
  have hkey : ∀ e ∈ es, (defines name e ↔ entryName e = name) :=
    fun e he => defines_iff_entryName hname (hform e he)
  induction es using unsetEntries.induct name with
  | case1 => rfl
  | case2 e h => simp [unsetEntries, KeyedList.dropKey, h, (hkey e (by simp)).mp h]
  | case3 e h =>
      have hne : entryName e ≠ name := fun he => h ((hkey e (by simp)).mpr he)
      simp [unsetEntries, KeyedList.dropKey, h, hne]
  | case4 e x es h ih =>
      -- the skipped entry has another name, since the names are distinct
      obtain rfl : entryName e = name := (hkey e (by simp)).mp h
      simp only [List.map_cons, List.nodup_cons] at hdistinct
      obtain ⟨he, hx, hes⟩ := hdistinct
      have hxe : entryName x ≠ entryName e := fun hxe => he (by simp [hxe])
      have hrec := ih (fun a ha => hform a (by simp [ha])) hes (fun a ha => hkey a (by simp [ha]))
      rw [unsetEntries, if_pos h, hrec]
      simp [KeyedList.dropKey, hxe]
  | case5 e x es h ih =>
      have hne : entryName e ≠ name := fun he => h ((hkey e (by simp)).mpr he)
      have hrec := ih (fun a ha => hform a (by simp [ha])) (List.nodup_cons.mp hdistinct).2
        (fun a ha => hkey a (by simp [ha]))
      rw [unsetEntries, if_neg h, hrec]
      simp [KeyedList.dropKey, hne]

theorem putEntry_of_absent {s : CStr} {es : List CStr}
    (h : ∀ e ∈ es, ¬ defines (entryName s) e) : putEntry s es = es ++ [s] := by
  induction es with
  | nil => rfl
  | cons e es ih =>
      rw [putEntry, if_neg (h e (by simp)), ih (fun x hx => h x (by simp [hx])), List.cons_append]

/-- `getenv` on a well formed environment is the keyed lookup. -/
theorem getenv_eq_lookup {environ : List (Option CStr)} (h : WellFormed environ) {name : CStr}
    (hname : eqSign ∉ name) :
    getenv name environ =
      (KeyedList.lookup entryName (entries environ) name).map (List.drop (name.length + 1)) := by
  have hfind : (entries environ).find? (defines name) =
      (entries environ).find? fun e => entryName e = name := by
    apply List.find?_congr
    intro e he
    rw [Bool.eq_iff_iff, defines_iff_entryName hname (h.form e he), decide_eq_true_iff]
  rw [getenv, hfind, KeyedList.lookup]

/-- `myunsetenv` drops exactly its name and keeps the environment well formed. -/
theorem myunsetenv_dropKey {environ : List (Option CStr)} (h : WellFormed environ) {name : CStr}
    (hname : eqSign ∉ name) :
    ∃ environ', myunsetenv name environ = some environ' ∧ WellFormed environ' ∧
      entries environ' = KeyedList.dropKey entryName (entries environ) name := by
  obtain ⟨environ', hrun, hterm, -, hentries⟩ := myunsetenv_eq name h.terminated
  rw [unsetEntries_eq_dropKey hname h.form h.distinct] at hentries
  refine ⟨environ', hrun, ⟨hterm, ?_, ?_⟩, hentries⟩
  · intro e he
    rw [hentries] at he
    exact h.form e (List.mem_of_mem_filter he)
  · rw [hentries]
    exact KeyedList.nodup_dropKey h.distinct name

/-- `putenv` of a name that is not there appends its entry. -/
theorem putenv_append {environ : List (Option CStr)} (h : WellFormed environ) {name : CStr}
    (hname : eqSign ∉ name) (value : CStr)
    (habsent : KeyedList.lookup entryName (entries environ) name = none) :
    WellFormed (putenv (name ++ eqSign :: value) environ) ∧
      entries (putenv (name ++ eqSign :: value) environ) =
        entries environ ++ [name ++ eqSign :: value] := by
  have hkey := entryName_append hname value
  have hput : putEntry (name ++ eqSign :: value) (entries environ) =
      entries environ ++ [name ++ eqSign :: value] := by
    apply putEntry_of_absent
    intro e he hdef
    rw [hkey, defines_iff_entryName hname (h.form e he)] at hdef
    exact KeyedList.lookup_eq_none_iff.mp habsent (hdef ▸ List.mem_map_of_mem he)
  have hentries : entries (putenv (name ++ eqSign :: value) environ) =
      entries environ ++ [name ++ eqSign :: value] := by
    rw [putenv, hput, entries_terminated]
  refine ⟨⟨by simp [putenv], ?_, ?_⟩, hentries⟩
  · intro e he
    rw [hentries] at he
    rcases List.mem_append.mp he with he | he
    · exact h.form e he
    · simp [List.mem_singleton.mp he]
  · rw [hentries]
    exact KeyedList.nodup_append h.distinct (hkey.symm ▸ habsent)

/-- One call of the interface. -/
inductive Call where
  | mysetenv (name value : CStr) (overwrite : ℤ) (mallocOk : Bool)
  | myunsetenv (name : CStr)

/-- The name a call is about. -/
def Call.name : Call → CStr
  | .mysetenv name _ _ _ => name
  | .myunsetenv name => name

def Call.run : Call → List (Option CStr) → Option (List (Option CStr))
  | .mysetenv name value overwrite mallocOk, environ =>
      (Environ.mysetenv name value overwrite mallocOk environ).map Prod.snd
  | .myunsetenv name, environ => Environ.myunsetenv name environ

/-- Successive calls. -/
def runCalls : List Call → List (Option CStr) → Option (List (Option CStr))
  | [], environ => some environ
  | c :: cs, environ => (c.run environ).bind (runCalls cs)

/-- Calls that leave everything alone: a name that is defined and not to be
overwritten, or a failed `malloc`. -/
def Call.skips : Call → (CStr → Option CStr) → Bool
  | .mysetenv name _ overwrite mallocOk, m => (overwrite == 0 && (m name).isSome) || !mallocOk
  | .myunsetenv _, _ => false

/-- The call on a map from names to values. -/
def Call.apply (c : Call) (m : CStr → Option CStr) : CStr → Option CStr :=
  if c.skips m then m
  else match c with
    | .mysetenv name value _ _ => Function.update m name (some value)
    | .myunsetenv name => Function.update m name none

theorem Call.apply_of_skips {c : Call} {m : CStr → Option CStr} (h : c.skips m) : c.apply m = m :=
  if_pos h

/-- Two maps that agree on names without `'='` agree after a call on such a name. -/
theorem Call.apply_congr {c : Call} (hc : eqSign ∉ c.name) {m m' : CStr → Option CStr}
    (h : ∀ name, eqSign ∉ name → m name = m' name) {name : CStr} (hname : eqSign ∉ name) :
    c.apply m name = c.apply m' name := by
  have hskips : c.skips m = c.skips m' := by
    cases c with
    | mysetenv n value overwrite mallocOk => simp only [Call.skips, h n hc]
    | myunsetenv n => rfl
  simp only [Call.apply, hskips]
  split_ifs
  · exact h name hname
  · cases c <;> simp only [Function.update_apply, h name hname]

theorem myunsetenv_getenv {environ environ' : List (Option CStr)} (h : WellFormed environ)
    (h' : WellFormed environ') {name : CStr}
    (hentries : entries environ' = KeyedList.dropKey entryName (entries environ) name)
    {other : CStr} (hother : eqSign ∉ other) :
    getenv other environ' = Function.update (getenv · environ) name none other := by
  rw [getenv_eq_lookup h' hother, hentries]
  by_cases hne : other = name
  · subst hne
    simp
  · rw [Function.update_of_ne hne, getenv_eq_lookup h hother,
      KeyedList.lookup_dropKey_of_ne _ hne]

/-- The branch of `mysetenv` that stores: the old entry goes, the new one comes. -/
theorem mysetenv_stores {environ : List (Option CStr)} (h : WellFormed environ) {name : CStr}
    (hname : eqSign ∉ name) (value : CStr) {overwrite : ℤ} {mallocOk : Bool}
    (hdefined : ¬ (overwrite = 0 ∧ getenv name environ ≠ none)) (hmalloc : mallocOk ≠ false) :
    ∃ environ', mysetenv name value overwrite mallocOk environ = some (0, environ') ∧
      WellFormed environ' ∧ ∀ other, eqSign ∉ other →
        getenv other environ' = Function.update (getenv · environ) name (some value) other := by
  obtain ⟨environ₁, hrun, hwf₁, hentries₁⟩ := myunsetenv_dropKey h hname
  have habsent : KeyedList.lookup entryName (entries environ₁) name = none := by
    rw [hentries₁]
    exact KeyedList.lookup_dropKey_self _ _
  obtain ⟨hwf, hentries⟩ := putenv_append hwf₁ hname value habsent
  have hkey := entryName_append hname value
  refine ⟨putenv (name ++ eqSign :: value) environ₁, ?_, hwf, ?_⟩
  · rw [mysetenv, if_neg hdefined, if_neg hmalloc, hrun]
    rfl
  · intro other hother
    rw [getenv_eq_lookup hwf hother, hentries]
    by_cases hne : other = name
    · subst hne
      have hself := KeyedList.lookup_append_self (hkey.symm ▸ habsent)
      rw [hkey] at hself
      simp [hself]
    · rw [KeyedList.lookup_append_of_ne _ (by rw [hkey]; exact Ne.symm hne),
        ← getenv_eq_lookup hwf₁ hother, myunsetenv_getenv h hwf₁ hentries₁ hother,
        Function.update_of_ne hne, Function.update_of_ne hne]

theorem Call.skips_mysetenv {name value : CStr} {overwrite : ℤ} {mallocOk : Bool}
    {m : CStr → Option CStr} :
    (Call.mysetenv name value overwrite mallocOk).skips m ↔
      (overwrite = 0 ∧ m name ≠ none) ∨ mallocOk = false := by
  simp [Call.skips, Option.isSome_iff_ne_none]

/-- What one call does to a well formed environment. -/
theorem Call.run_spec (c : Call) {environ : List (Option CStr)} (h : WellFormed environ)
    (hc : eqSign ∉ c.name) :
    ∃ environ', c.run environ = some environ' ∧ WellFormed environ' ∧
      (c.skips (getenv · environ) → environ' = environ) ∧
      ∀ name, eqSign ∉ name → getenv name environ' = c.apply (getenv · environ) name := by
  by_cases hskip : c.skips (getenv · environ)
  · refine ⟨environ, ?_, h, fun _ => rfl, fun name _ => by rw [Call.apply_of_skips hskip]⟩
    cases c with
    | myunsetenv name => simp [Call.skips] at hskip
    | mysetenv name value overwrite mallocOk =>
        rcases Call.skips_mysetenv.mp hskip with hdefined | hmalloc
        · simp [Call.run, Environ.mysetenv, hdefined]
        · simp only [Call.run, Environ.mysetenv, hmalloc, if_true]
          split_ifs <;> rfl
  · cases c with
    | myunsetenv name =>
        obtain ⟨environ', hrun, hwf, hentries⟩ := myunsetenv_dropKey h hc
        refine ⟨environ', hrun, hwf, fun hs => absurd hs hskip, ?_⟩
        intro other hother
        simp only [Call.apply, if_neg hskip]
        exact myunsetenv_getenv h hwf hentries hother
    | mysetenv name value overwrite mallocOk =>
        obtain ⟨hdefined, hmalloc⟩ := not_or.mp (mt Call.skips_mysetenv.mpr hskip)
        obtain ⟨environ', hrun, hwf, hmap⟩ := mysetenv_stores h hc value hdefined hmalloc
        refine ⟨environ', ?_, hwf, fun hs => absurd hs hskip, ?_⟩
        · simp only [Call.run, Call.name] at hrun ⊢
          rw [hrun, Option.map_some]
        · intro other hother
          simp only [Call.apply, if_neg hskip]
          exact hmap other hother

theorem runCalls_spec {calls : List Call} (hvalid : ∀ c ∈ calls, eqSign ∉ c.name)
    {environ : List (Option CStr)} (h : WellFormed environ) {m : CStr → Option CStr}
    (hm : ∀ name, eqSign ∉ name → getenv name environ = m name) :
    ∃ environ', runCalls calls environ = some environ' ∧ WellFormed environ' ∧
      ∀ name, eqSign ∉ name → getenv name environ' = calls.foldl (fun m c => c.apply m) m name := by
  induction calls generalizing environ m with
  | nil => exact ⟨environ, rfl, h, hm⟩
  | cons c calls ih =>
      have hc := hvalid c (by simp)
      obtain ⟨environ₁, hrun, hwf, -, hmap⟩ := c.run_spec h hc
      have hm₁ : ∀ name, eqSign ∉ name → getenv name environ₁ = c.apply m name := by
        intro name hname
        rw [hmap name hname]
        exact Call.apply_congr hc hm hname
      obtain ⟨environ', hrest, hwf', hfold⟩ := ih (fun d hd => hvalid d (by simp [hd])) hwf hm₁
      exact ⟨environ', by rw [runCalls, hrun]; exact hrest, hwf', hfold⟩

/-- The environment is a finite map: after any sequence of calls from a well
formed environment, the names are still distinct and every name has the value
the map operations give it; and whatever call comes next either skips, changing
no cell, or updates its own name and no other. -/
theorem environ_is_map {environ : List (Option CStr)} (h : WellFormed environ) (calls : List Call)
    (hvalid : ∀ c ∈ calls, c.name ≠ [] ∧ eqSign ∉ c.name) :
    ∃ environ', runCalls calls environ = some environ' ∧ WellFormed environ' ∧
      (∀ name, eqSign ∉ name →
        getenv name environ' = calls.foldl (fun m c => c.apply m) (getenv · environ) name) ∧
      ∀ c : Call, c.name ≠ [] → eqSign ∉ c.name → ∃ environ'', c.run environ' = some environ'' ∧
        (c.skips (getenv · environ') → environ'' = environ') ∧
        ∀ name, eqSign ∉ name → getenv name environ'' = c.apply (getenv · environ') name := by
  obtain ⟨environ', hrun, hwf, hmap⟩ :=
    runCalls_spec (fun c hc => (hvalid c hc).2) h (fun _ _ => rfl)
  refine ⟨environ', hrun, hwf, hmap, ?_⟩
  intro c _ hc
  obtain ⟨environ'', hstep, -, hskip, hnext⟩ := c.run_spec hwf hc
  exact ⟨environ'', hstep, hskip, hnext⟩

/-- With `A=1` and `AB=2` in the environment, `A` is overwritten, `AB` is removed
and a failed allocation changes nothing. -/
theorem environ_is_map_overwrite :
    ∃ environ', runCalls [.mysetenv [65] [57] 1 true, .myunsetenv [65, 66],
        .mysetenv [67] [48] 1 false] [some [65, 61, 49], some [65, 66, 61, 50], none] =
          some environ' ∧ WellFormed environ' ∧ getenv [65] environ' = some [57] ∧
        getenv [65, 66] environ' = none ∧ getenv [67] environ' = none := by
  have hstart : WellFormed [some [65, 61, 49], some [65, 66, 61, 50], none] :=
    ⟨by decide, by decide, by decide⟩
  obtain ⟨environ', hrun, hwf, hmap, -⟩ := environ_is_map hstart
    [.mysetenv [65] [57] 1 true, .myunsetenv [65, 66], .mysetenv [67] [48] 1 false] (by decide)
  refine ⟨environ', hrun, hwf, ?_, ?_, ?_⟩
  · exact hmap [65] (by decide)
  · exact hmap [65, 66] (by decide)
  · exact hmap [67] (by decide)

/-- `e` is an entry `name=...`. -/
abbrev EntryFor (name e : CStr) : Prop := name ++ [eqSign] <+: e

theorem defines_iff_entryFor {name e : CStr} : defines name e ↔ EntryFor name e := by
  rw [defines_iff]
  constructor
  · rintro ⟨v, rfl⟩
    exact ⟨v, by simp⟩
  · rintro ⟨v, rfl⟩
    exact ⟨v, by simp⟩

/-- The loop removes every entry for `name` exactly if no two of them are neighbours:
of two neighbours the second is moved into the place of the first and not tested. -/
theorem unsetEntries_eq_filter_iff (name : CStr) (es : List CStr) :
    unsetEntries name es = es.filter (fun e => ¬ EntryFor name e) ↔
      es.IsChain fun a b => ¬ (EntryFor name a ∧ EntryFor name b) := by
  induction es using unsetEntries.induct name with
  | case1 => simp [unsetEntries]
  | case2 e h => simp [unsetEntries, h, defines_iff_entryFor.mp h]
  | case3 e h => simp [unsetEntries, h, mt defines_iff_entryFor.mpr h]
  | case4 e x es h ih =>
      have he := defines_iff_entryFor.mp h
      rw [unsetEntries, if_pos h, List.filter_cons_of_neg (by simpa using he), List.isChain_cons_cons]
      by_cases hx : EntryFor name x
      · refine iff_of_false ?_ (fun hchain => hchain.1 ⟨he, hx⟩)
        intro heq
        rw [List.filter_cons_of_neg (by simpa using hx)] at heq
        have hmem : x ∈ es.filter fun e => ¬ EntryFor name e := heq ▸ List.mem_cons_self
        exact of_decide_eq_true (List.mem_filter.mp hmem).2 hx
      · rw [List.filter_cons_of_pos (by simpa using hx), List.cons_inj_right, ih, List.isChain_cons]
        simp [hx]
  | case5 e x es h ih =>
      have he := mt defines_iff_entryFor.mpr h
      rw [unsetEntries, if_neg h, List.filter_cons_of_pos (by simpa using he), List.cons_inj_right,
        ih, List.isChain_cons_cons]
      simp [he]

/-- `myunsetenv` leaves exactly the entries that are not for `name`, in their order and
terminated, if and only if no two neighbouring entries are both for `name`. -/
theorem unset_removes_all_iff (name : CStr) (es : List CStr) (junk : List (Option CStr)) :
    (∃ junk', myunsetenv name (es.map some ++ none :: junk) =
        some ((es.filter fun e => ¬ EntryFor name e).map some ++ none :: junk')) ↔
      es.IsChain fun a b => ¬ (EntryFor name a ∧ EntryFor name b) := by
  have hrun := unsetLoop_eq name es junk (es.map some ++ none :: junk).length (by simp)
  rw [← unsetEntries_eq_filter_iff, myunsetenv, hrun]
  constructor
  · rintro ⟨junk', heq⟩
    simpa using congrArg entries (Option.some.inj heq)
  · intro heq
    exact ⟨_, by rw [heq]⟩

/-- With `A=1` and `A=2` next to each other, unsetting `A` keeps `A=2`. -/
theorem unset_keeps_neighbour :
    myunsetenv [65] [some [65, 61, 49], some [65, 61, 50], none] =
        some [some [65, 61, 50], none, none] ∧ EntryFor [65] [65, 61, 50] := by
  decide

/-- Only entries for `name` are removed, so the others are kept as they are. -/
theorem filter_unsetEntries {name : CStr} (hname : eqSign ∉ name) (es : List CStr) :
    (unsetEntries name es).filter (fun e => entryName e ≠ name) =
      es.filter fun e => entryName e ≠ name := by
  have hdefines : ∀ {e : CStr}, defines name e → entryName e = name := by
    intro e he
    obtain ⟨v, rfl⟩ := defines_iff.mp he
    exact entryName_append hname v
  induction es using unsetEntries.induct name with
  | case1 => rfl
  | case2 e h => simp [unsetEntries, h, hdefines h]
  | case3 e h => simp [unsetEntries, h]
  | case4 e x es h ih =>
      rw [unsetEntries, if_pos h, List.filter_cons, ih]
      simp [List.filter_cons, hdefines h]
  | case5 e x es h ih => rw [unsetEntries, if_neg h, List.filter_cons, List.filter_cons, ih]

/-- `myunsetenv` ends without leaving the cells up to the terminating NULL, whatever
stands behind them, and keeps every entry with another name, as often and in the order
it was there. -/
theorem unset_keeps_others (name : CStr) (hname : eqSign ∉ name) (es : List CStr) :
    ∃ es' : List CStr, es'.length ≤ es.length ∧
      (∀ behind, myunsetenv name (es.map some ++ none :: behind) =
        some (es'.map some ++ none :: (List.replicate (es.length - es'.length) none ++ behind))) ∧
      es'.filter (fun e => entryName e ≠ name) = es.filter fun e => entryName e ≠ name := by
  refine ⟨unsetEntries name es, unsetEntries_length_le name es, ?_, filter_unsetEntries hname es⟩
  intro behind
  exact unsetLoop_eq name es behind _ (by simp)

/-- Of `A=1`, `A=2`, `AB=3`, `A=4` with the last one before the NULL, `AB=3` is kept. -/
theorem unset_keeps_others_adjacent :
    ∃ es' : List CStr, myunsetenv [65] [some [65, 61, 49], some [65, 61, 50], some [65, 66, 61, 51],
        some [65, 61, 52], none] =
          some (es'.map some ++ none :: (List.replicate (4 - es'.length) none)) ∧
      es'.filter (fun e => entryName e ≠ [65]) = [[65, 66, 61, 51]] := by
  obtain ⟨es', -, hrun, hkept⟩ := unset_keeps_others [65] (by decide)
    [[65, 61, 49], [65, 61, 50], [65, 66, 61, 51], [65, 61, 52]]
  exact ⟨es', by simpa using hrun [], by rw [hkept]; decide⟩

end TlpiExercises.Environ
