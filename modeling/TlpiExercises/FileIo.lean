import TlpiExercises.CText
import TlpiExercises.Exits

/-!
# Creating and deleting files with random ids

The program makes `n` ids, in order or by adding up random steps and shuffling, creates a file
in `./tmp` for each id, sorts the ids and deletes the files. The array `ids` has `N` entries and
`content` has 100. A directory maps names to contents; no system call fails, and
`random_shuffle` and `qsort` are arguments of the model. `qsort` may compare any two entries.
-/
namespace TlpiExercises.FileIo
open CText Exits

/-- The size of `ids`. -/
abbrev maxIds : ℕ := 100000

/-- The size of `content`. -/
abbrev contentSize : ℕ := 100

/-- The content of each file of a directory. -/
abbrev Dir := List UInt8 → Option (List UInt8)

inductive CreateMode where
  | random
  | ordered
  deriving DecidableEq, Repr

/-- Undefined arithmetic or an access outside an array, or the error of `deleteFiles`. -/
inductive Stop where
  | overflow
  | outOfBounds
  | sameName
  deriving DecidableEq, Repr

/-- The result of an operation on `int`s. -/
def checked (x : ℤ) : Except Stop ℤ := do
  require (-2 ^ 31 ≤ x ∧ x < 2 ^ 31) .overflow
  return x

/-- The loop of `calcRandom`, for the number of entries left, the last one and its index. -/
def calcLoop (rand : ℕ → ℕ) : ℕ → ℤ → ℕ → Except Stop (List ℤ)
  | 0, _, _ => return []
  | k + 1, last, i => do
      let next ← checked (last + 1)
      let id ← checked (next + (rand (i + 1) % 1000 : ℕ))
      let rest ← calcLoop rand k id (i + 1)
      return id :: rest

def calcRandom (rand : ℕ → ℕ) (shuffle : List ℤ → List ℤ) (n : ℕ) : Except Stop (List ℤ) := do
  require (n ≤ maxIds) .outOfBounds
  let first : ℤ := (rand 0 % 1000 : ℕ)
  let rest ← calcLoop rand (n - 1) first 0
  return shuffle ((first :: rest).take n)

/-- `ids` as `main` fills it. -/
def calcIds (mode : CreateMode) (rand : ℕ → ℕ) (shuffle : List ℤ → List ℤ) (n : ℕ) :
    Except Stop (List ℤ) :=
  match mode with
  | .random => calcRandom rand shuffle n
  | .ordered => do
      require (n ≤ maxIds) .outOfBounds
      return (List.range n).map Int.ofNat

/-- `%09d`. -/
def padded (x : ℤ) : List UInt8 :=
  if x < 0 then 45 :: (List.replicate (8 - (decimal x.natAbs).length) 48 ++ decimal x.natAbs)
  else List.replicate (9 - (decimal x.natAbs).length) 48 ++ decimal x.natAbs

/-- The name in `./tmp` of the file for an id. -/
def fileName (id : ℤ) : List UInt8 := 120 :: padded id

/-- The first `sz` entries of `content`, with the counter that chooses the letters. -/
def fill : ℕ → ℕ → List UInt8 × ℕ
  | 0, cnt => ([], cnt)
  | j + 1, cnt =>
      let (content, cnt') := fill j ((cnt + 1) % 26)
      (UInt8.ofNat (97 + cnt) :: content, cnt')

/-- `open` with `O_CREAT`, and `write` at the start of the file. -/
def put (dir : Dir) (name content : List UInt8) : Dir :=
  Function.update dir name (some (content ++ ((dir name).getD []).drop content.length))

/-- The loop of `createFiles`. -/
def createLoop (sz : ℕ) : List ℤ → ℕ → Dir → Except Stop Dir
  | [], _, dir => return dir
  | id :: ids, cnt, dir => do
      require (sz < contentSize) .outOfBounds
      let (content, cnt') := fill sz cnt
      createLoop sz ids cnt' (put dir (fileName id) content)

def createFiles (ids : List ℤ) (sz : ℕ) (dir : Dir) : Except Stop Dir := createLoop sz ids 0 dir

def compare (a b : ℤ) : Except Stop ℤ := checked (a - b)

/-- `qsort` with `compare`. -/
def qsort (sort : List ℤ → List ℤ) (ids : List ℤ) : Except Stop (List ℤ) := do
  require (∀ a ∈ ids, ∀ b ∈ ids, compare a b = .ok (a - b)) .overflow
  return sort ids

/-- Two neighbouring entries are the same. -/
def hasRepeat : List ℤ → Bool
  | a :: b :: ids => a = b || hasRepeat (b :: ids)
  | _ => false

/-- `unlink`; a file that does not exist is reported and nothing else happens. -/
def unlink (dir : Dir) (name : List UInt8) : Dir := Function.update dir name none

def deleteFiles (sort : List ℤ → List ℤ) (ids : List ℤ) (dir : Dir) : Except Stop Dir := do
  let ids ← qsort sort ids
  require (hasRepeat ids = false) .sameName
  return ids.foldl (fun dir id => unlink dir (fileName id)) dir

def main (mode : CreateMode) (rand : ℕ → ℕ) (shuffle sort : List ℤ → List ℤ) (n sz : ℕ)
    (dir : Dir) : Except Stop Dir := do
  let ids ← calcIds mode rand shuffle n
  let dir ← createFiles ids sz dir
  deleteFiles sort ids dir

/-- What the ids have to be for the files to be created and deleted. -/
structure Ids (n : ℕ) (ids : List ℤ) : Prop where
  length : ids.length = n
  nodup : ids.Nodup
  range : ∀ id ∈ ids, 0 ≤ id ∧ id < 10 ^ 9

/-- The directory has no files with names like those the program uses. -/
def Clean (dir : Dir) : Prop :=
  ∀ digits, digits ≠ [] → (∀ d ∈ digits, isdigit d) → dir (120 :: digits) = none

section Ids

theorem checked_eq {x : ℤ} (hl : -2 ^ 31 ≤ x) (hr : x < 2 ^ 31) : checked x = .ok x := by
  unfold checked
  simp only [bind_eq_ok_iff, require_eq_ok_iff, pure_eq_ok_iff, decide_eq_true_eq, exists_const,
    and_true]
  exact ⟨hl, hr⟩

/-- Each step is at least 1 and at most 1000, so the ids increase and stay below the bound. -/
theorem calcLoop_eq (rand : ℕ → ℕ) (k : ℕ) {last : ℤ} (i : ℕ) (hlast : 0 ≤ last)
    (hmax : last + 1000 * k < 2 ^ 31) :
    ∃ rest, calcLoop rand k last i = .ok rest ∧ rest.length = k ∧
      (last :: rest).Pairwise (· < ·) ∧ ∀ id ∈ last :: rest, id ≤ last + 1000 * k := by
  induction k generalizing last i with
  | zero => exact ⟨[], rfl, rfl, by simp, by simp⟩
  | succ k ih =>
      have hstep : rand (i + 1) % 1000 < 1000 := Nat.mod_lt _ (by decide)
      obtain ⟨id, hid⟩ : ∃ id : ℤ, id = last + 1 + (rand (i + 1) % 1000 : ℕ) := ⟨_, rfl⟩
      push_cast at hmax
      obtain ⟨rest, hrun, hlen, hpair, hle⟩ := ih (i + 1) (show 0 ≤ id by omega) (by omega)
      refine ⟨id :: rest, ?_, by simp [hlen], ?_, ?_⟩
      · rw [calcLoop, checked_eq (by omega) (by omega)]
        show (checked (last + 1 + (rand (i + 1) % 1000 : ℕ)) >>= fun id =>
          calcLoop rand k id (i + 1) >>= fun rest => pure (id :: rest)) = _
        rw [← hid, checked_eq (by omega) (by omega)]
        show (calcLoop rand k id (i + 1) >>= fun rest => pure (id :: rest)) = _
        rw [hrun]
        rfl
      · refine List.pairwise_cons.mpr ⟨fun x hx => ?_, hpair⟩
        rcases List.mem_cons.mp hx with rfl | hx
        · omega
        · have hlt := (List.pairwise_cons.mp hpair).1 x hx
          omega
      · push_cast
        intro x hx
        rcases List.mem_cons.mp hx with rfl | hx
        · omega
        · have hx' := hle x hx
          omega

theorem Ids.perm {n : ℕ} {ids ids' : List ℤ} (h : Ids n ids) (hperm : ids'.Perm ids) : Ids n ids' where
  length := hperm.length_eq.trans h.length
  nodup := hperm.nodup_iff.mpr h.nodup
  range id hid := h.range id (hperm.mem_iff.mp hid)

/-- In both modes the ids are distinct and below a billion, and no sum overflows. -/
theorem calcIds_eq (mode : CreateMode) (rand : ℕ → ℕ) {shuffle : List ℤ → List ℤ}
    (hshuffle : ∀ ids, (shuffle ids).Perm ids) {n : ℕ} (hn : 1 ≤ n) (hmax : n ≤ maxIds) :
    ∃ ids, calcIds mode rand shuffle n = .ok ids ∧ Ids n ids := by
  have hroom : decide (n ≤ maxIds) = true := decide_eq_true hmax
  cases mode with
  | random =>
      have hmod : rand 0 % 1000 < 1000 := Nat.mod_lt _ (by decide)
      have hmax' : n ≤ 100000 := hmax
      obtain ⟨rest, hrun, hlen, hpair, hle⟩ := calcLoop_eq rand (n - 1) 0
        (show 0 ≤ ((rand 0 % 1000 : ℕ) : ℤ) by omega) (by push_cast; omega)
      have hids : Ids n (((rand 0 % 1000 : ℕ) : ℤ) :: rest) := by
        refine ⟨by simp [hlen]; omega, hpair.imp ne_of_lt, fun id hid => ⟨?_, ?_⟩⟩
        · rcases List.mem_cons.mp hid with rfl | hid
          · omega
          · have hlt := (List.pairwise_cons.mp hpair).1 id hid
            omega
        · have hid' := hle id hid
          push_cast at hid'
          omega
      refine ⟨_, ?_, hids.perm (hshuffle _)⟩
      unfold calcIds calcRandom
      simp only [bind_eq_ok_iff, require_eq_ok_iff, pure_eq_ok_iff, hroom, exists_const, true_and]
      exact ⟨rest, hrun, by rw [List.take_of_length_le hids.length.le]⟩
  | ordered =>
      refine ⟨(List.range n).map Int.ofNat, ?_, ?_⟩
      · unfold calcIds
        simp only [bind_eq_ok_iff, require_eq_ok_iff, pure_eq_ok_iff, hroom, exists_const, true_and]
      · refine ⟨by simp, List.nodup_range.map fun _ _ => Int.ofNat.inj, ?_⟩
        intro id hid
        obtain ⟨i, hi, rfl⟩ := List.mem_map.mp hid
        have hlt := List.mem_range.mp hi
        have hmax' : n ≤ 100000 := hmax
        rw [Int.ofNat_eq_natCast]
        omega

end Ids

section Names

theorem digitsVal_replicate_zero (k : ℕ) (digits : List UInt8) :
    digitsVal (List.replicate k 48 ++ digits) = digitsVal digits := by
  induction k with
  | zero => rfl
  | succ k ih => exact ih

theorem padded_of_nonneg {x : ℤ} (h : 0 ≤ x) :
    padded x = List.replicate (9 - (decimal x.natAbs).length) 48 ++ decimal x.natAbs :=
  if_neg (not_lt.mpr h)

theorem digitsVal_padded {x : ℤ} (h : 0 ≤ x) : digitsVal (padded x) = x.natAbs := by
  rw [padded_of_nonneg h, digitsVal_replicate_zero, digitsVal_decimal]

theorem padded_length {x : ℤ} (h : 0 ≤ x) (hx : x < 10 ^ 9) : (padded x).length = 9 := by
  have hlen : (decimal x.natAbs).length ≤ 9 := decimal_length_le (by decide) (by omega)
  rw [padded_of_nonneg h, List.length_append, List.length_replicate]
  omega

theorem isdigit_of_mem_padded {x : ℤ} (h : 0 ≤ x) {d : UInt8} (hd : d ∈ padded x) : isdigit d := by
  rw [padded_of_nonneg h] at hd
  rcases List.mem_append.mp hd with hd | hd
  · rw [List.eq_of_mem_replicate hd]
    decide
  · exact isdigit_of_mem_decimal hd

theorem fileName_inj {x y : ℤ} (hx : 0 ≤ x) (hy : 0 ≤ y) (h : fileName x = fileName y) : x = y := by
  have hval := congrArg digitsVal (List.cons.inj h).2
  rw [digitsVal_padded hx, digitsVal_padded hy] at hval
  omega

theorem Ids.nodup_names {n : ℕ} {ids : List ℤ} (h : Ids n ids) : (ids.map fileName).Nodup := by
  refine List.Nodup.map_on ?_ h.nodup
  intro x hx y hy
  exact fileName_inj (h.range x hx).1 (h.range y hy).1

/-- A name of `x` and nine digits. -/
def NineDigits (name : List UInt8) : Prop :=
  ∃ digits, name = 120 :: digits ∧ digits.length = 9 ∧ ∀ d ∈ digits, isdigit d

theorem Ids.nineDigits {n : ℕ} {ids : List ℤ} (h : Ids n ids) {name : List UInt8}
    (hname : name ∈ ids.map fileName) : NineDigits name := by
  obtain ⟨id, hid, rfl⟩ := List.mem_map.mp hname
  obtain ⟨hnonneg, hlt⟩ := h.range id hid
  exact ⟨padded id, rfl, padded_length hnonneg hlt, fun d => isdigit_of_mem_padded hnonneg⟩

theorem Clean.eq_none {dir : Dir} (h : Clean dir) {name : List UInt8} (hname : NineDigits name) :
    dir name = none := by
  obtain ⟨digits, rfl, hlen, hdigits⟩ := hname
  refine h digits ?_ hdigits
  rintro rfl
  exact absurd hlen (by decide)

end Names

section Files

/-- The files of the names are new and have `sz` bytes each, and the others are as before. -/
structure Created (names : List (List UInt8)) (sz : ℕ) (dir created : Dir) : Prop where
  fresh : ∀ name ∈ names, dir name = none
  made : ∀ name ∈ names, ∃ content, created name = some content ∧ content.length = sz
  kept : ∀ name, name ∉ names → created name = dir name

@[simp] theorem fill_length (j cnt : ℕ) : (fill j cnt).1.length = j := by
  induction j generalizing cnt with
  | zero => rfl
  | succ j ih => simp [fill, ih]

theorem put_of_none {dir : Dir} {name : List UInt8} (h : dir name = none) (content : List UInt8) :
    put dir name content = Function.update dir name (some content) := by
  simp [put, h]

theorem createLoop_cons {sz : ℕ} (hsz : sz < contentSize) (id : ℤ) (ids : List ℤ) (cnt : ℕ)
    (dir : Dir) : createLoop sz (id :: ids) cnt dir =
      createLoop sz ids (fill sz cnt).2 (put dir (fileName id) (fill sz cnt).1) := by
  have hroom : require (sz < contentSize) Stop.outOfBounds = .ok () :=
    require_eq_ok_iff.mpr (decide_eq_true hsz)
  rw [createLoop, hroom]
  rfl

theorem createLoop_created {sz : ℕ} (hsz : sz < contentSize) {ids : List ℤ} (cnt : ℕ) {dir : Dir}
    (hnodup : (ids.map fileName).Nodup) (hfresh : ∀ name ∈ ids.map fileName, dir name = none) :
    ∃ created, createLoop sz ids cnt dir = .ok created ∧
      Created (ids.map fileName) sz dir created := by
  induction ids generalizing cnt dir with
  | nil => exact ⟨dir, rfl, by simp, by simp, fun _ _ => rfl⟩
  | cons id ids ih =>
      rw [List.map_cons, List.nodup_cons] at hnodup
      rw [List.map_cons, List.forall_mem_cons] at hfresh
      obtain ⟨hnew, hnodup⟩ := hnodup
      obtain ⟨hid, hfresh⟩ := hfresh
      rw [createLoop_cons hsz, put_of_none hid]
      have hother : ∀ name, name ≠ fileName id →
          Function.update dir (fileName id) (some (fill sz cnt).1) name = dir name :=
        fun name hne => Function.update_of_ne hne _ _
      obtain ⟨created, hrun, _, hmade, hkept⟩ := ih (fill sz cnt).2 hnodup fun name hname =>
        (hother name fun heq => hnew (heq ▸ hname)).trans (hfresh name hname)
      refine ⟨created, hrun, List.forall_mem_cons.mpr ⟨hid, hfresh⟩,
        List.forall_mem_cons.mpr ⟨⟨(fill sz cnt).1, ?_, fill_length sz cnt⟩, hmade⟩, ?_⟩
      · rw [hkept _ hnew, Function.update_self]
      · intro name hname
        rw [List.map_cons, List.mem_cons, not_or] at hname
        rw [hkept name hname.2, hother name hname.1]

theorem hasRepeat_of_nodup {ids : List ℤ} (h : ids.Nodup) : hasRepeat ids = false := by
  fun_induction hasRepeat ids with
  | case1 a b ids ih =>
      obtain ⟨ha, htail⟩ := List.nodup_cons.mp h
      have hne : a ≠ b := fun heq => ha (heq ▸ List.mem_cons_self)
      simp [hne, ih htail]
  | case2 => rfl

theorem compare_eq {n : ℕ} {ids : List ℤ} (h : Ids n ids) :
    ∀ a ∈ ids, ∀ b ∈ ids, compare a b = .ok (a - b) := by
  intro a ha b hb
  have hra := h.range a ha
  have hrb := h.range b hb
  exact checked_eq (by omega) (by omega)

theorem foldl_unlink (ids : List ℤ) (dir : Dir) (name : List UInt8) :
    ids.foldl (fun dir id => unlink dir (fileName id)) dir name =
      if name ∈ ids.map fileName then none else dir name := by
  induction ids generalizing dir with
  | nil => rfl
  | cons id ids ih =>
      rw [List.foldl_cons, ih, unlink]
      by_cases hname : name = fileName id
      · simp [hname]
      · rw [Function.update_of_ne hname]
        simp only [List.map_cons, List.mem_cons, hname, false_or]

/-- `deleteFiles` undoes `createFiles`. -/
theorem deleteFiles_created {n sz : ℕ} {ids : List ℤ} (h : Ids n ids) {sort : List ℤ → List ℤ}
    (hsort : (sort ids).Perm ids) {dir created : Dir}
    (hcreated : Created (ids.map fileName) sz dir created) :
    deleteFiles sort ids created = .ok dir := by
  have hrun : deleteFiles sort ids created =
      .ok ((sort ids).foldl (fun dir id => unlink dir (fileName id)) created) := by
    unfold deleteFiles qsort
    simp only [bind_eq_ok_iff, require_eq_ok_iff, pure_eq_ok_iff, exists_const, decide_eq_true_eq]
    exact ⟨sort ids, ⟨compare_eq h, rfl⟩, hasRepeat_of_nodup (h.perm hsort).nodup, rfl⟩
  rw [hrun]
  refine congrArg Except.ok (funext fun name => ?_)
  simp only [foldl_unlink, (hsort.map fileName).mem_iff]
  split
  case isTrue hname => exact (hcreated.fresh name hname).symm
  case isFalse hname => exact hcreated.kept name hname

end Files

/-- Whatever the random numbers are, the ids are distinct and below a billion, `createFiles`
makes a new file for each of them, and `deleteFiles` leaves the directory as it was. -/
theorem main_restores_dir (mode : CreateMode) (rand : ℕ → ℕ) {shuffle sort : List ℤ → List ℤ}
    (hshuffle : ∀ ids, (shuffle ids).Perm ids) (hsort : ∀ ids, (sort ids).Perm ids) {n sz : ℕ}
    (hn : 1 ≤ n) (hmax : n ≤ maxIds) (hsz : sz < contentSize) {dir : Dir} (hdir : Clean dir) :
    ∃ ids created, calcIds mode rand shuffle n = .ok ids ∧ Ids n ids ∧
      createFiles ids sz dir = .ok created ∧ Created (ids.map fileName) sz dir created ∧
      (ids.map fileName).Nodup ∧ (∀ name ∈ ids.map fileName, NineDigits name) ∧
      deleteFiles sort ids created = .ok dir ∧ main mode rand shuffle sort n sz dir = .ok dir := by
  obtain ⟨ids, hcalc, hids⟩ := calcIds_eq mode rand hshuffle hn hmax
  obtain ⟨created, hcreate, hcreated⟩ := createLoop_created hsz 0 hids.nodup_names
    fun name hname => hdir.eq_none (hids.nineDigits hname)
  have hdelete := deleteFiles_created hids (hsort ids) hcreated
  refine ⟨ids, created, hcalc, hids, hcreate, hcreated, hids.nodup_names,
    fun name => hids.nineDigits, hdelete, ?_⟩
  unfold main
  simp only [bind_eq_ok_iff]
  exact ⟨ids, hcalc, created, hcreate, hdelete⟩

theorem main_restores_dir_two :
    ∃ ids created, calcIds .random (fun i => 7 * i) List.reverse 2 = .ok ids ∧ Ids 2 ids ∧
      createFiles ids 3 (fun _ => none) = .ok created ∧
      Created (ids.map fileName) 3 (fun _ => none) created ∧ (ids.map fileName).Nodup ∧
      (∀ name ∈ ids.map fileName, NineDigits name) ∧
      deleteFiles id ids created = .ok (fun _ => none) ∧
      main .random (fun i => 7 * i) List.reverse id 2 3 (fun _ => none) = .ok (fun _ => none) :=
  main_restores_dir .random (fun i => 7 * i) List.reverse_perm List.Perm.refl (by decide)
    (by decide) (by decide) fun _ _ _ => rfl

end TlpiExercises.FileIo
