import TlpiExercises.CText
import TlpiExercises.RacyCounter

/-!
# Two threads that increment one variable

Both threads run `threadFunc` with the same number of loops. Loading `glob`, storing it and
printing it are separate steps, the threads' steps interleave in any order, and nothing keeps
one thread from storing between the load and the store of the other.
-/
namespace TlpiExercises.ThreadIncr
open CText RacyCounter

inductive Thread where
  | t1
  | t2
  deriving DecidableEq, Repr

instance : Fintype Thread := ⟨{.t1, .t2}, by intro i; cases i <;> simp⟩

/-- What a thread does next: the test of the loop, the load of `glob` into `loc`, the store of
`loc` after it was incremented, or the load for `printf`. -/
inductive PC where
  | test
  | load
  | store (loc : Int32)
  | print
  | returned
  deriving DecidableEq, Repr

structure Local where
  pc : PC
  j : Int32
  deriving DecidableEq, Repr

/-- `glob`, the threads, and the lines that were printed. -/
structure State where
  glob : Int32
  thread : Thread → Local
  output : List (Thread × Int32)

def State.initial : State := ⟨0, fun _ => ⟨.test, 0⟩, []⟩

def State.set (s : State) (i : Thread) (me : Local) : State :=
  { s with thread := Function.update s.thread i me }

@[simp] theorem State.set_self (s : State) (i : Thread) (me : Local) : (s.set i me).thread i = me :=
  Function.update_self ..

theorem State.set_of_ne (s : State) {i k : Thread} (h : k ≠ i) (me : Local) :
    (s.set i me).thread k = s.thread k :=
  Function.update_of_ne h ..

/-- The next step of thread `i` in `threadFunc`. -/
def advance (loops : Int32) (i : Thread) (s : State) : Option State :=
  let me := s.thread i
  match me.pc with
  | .test => some (s.set i { me with pc := if me.j < loops then .load else .returned })
  | .load => some (s.set i { me with pc := .store s.glob })
  | .store loc => some ({ s with glob := loc + 1 }.set i { me with pc := .print })
  | .print => some ({ s with output := s.output ++ [(i, s.glob)] }.set i ⟨.test, me.j + 1⟩)
  | .returned => none

def system (loops : Int32) : System State := .ofNext (· = .initial) (advance loops)

/-- Both calls of `pthread_join` have returned. -/
def State.Joined (s : State) : Prop := ∀ i, (s.thread i).pc = .returned

section Refinement

/-- A thread as the counter sees it: the increments it has made and the value it has loaded. -/
def Tracks (loops : Int32) (me : Local) (stores : ℕ) (loaded : Option ℕ) : Prop :=
  match me.pc with
  | .test => me.j.toInt = stores ∧ stores ≤ loops.toInt ∧ loaded = none
  | .load => me.j.toInt = stores ∧ stores < loops.toInt ∧ loaded = none
  | .store loc =>
      me.j.toInt = stores ∧ stores < loops.toInt ∧ ∃ v : ℕ, loaded = some v ∧ loc.toInt = v
  | .print => me.j.toInt + 1 = stores ∧ stores ≤ loops.toInt ∧ loaded = none
  | .returned => stores = loops.toInt ∧ loaded = none

structure Refines (loops : Int32) (s : State) (c : Counter Thread) : Prop where
  glob : s.glob.toInt = c.value
  thread : ∀ i, Tracks loops (s.thread i) (c.stores i) (c.loaded i)

variable {loops : Int32} {s : State} {c c' : Counter Thread} {i : Thread}

theorem Tracks.stores_le {me : Local} {stores : ℕ} {loaded : Option ℕ}
    (h : Tracks loops me stores loaded) : (stores : ℤ) ≤ loops.toInt := by
  unfold Tracks at h
  split at h <;> omega

theorem total_eq (c : Counter Thread) : c.total = c.stores .t1 + c.stores .t2 := rfl

/-- A step of one thread, for the counter and for the thread itself. -/
theorem Refines.set (h : Refines loops s c) {glob : Int32} (hglob : glob.toInt = c'.value)
    {output : List (Thread × Int32)} {me : Local}
    (hme : Tracks loops me (c'.stores i) (c'.loaded i))
    (hothers : ∀ k, k ≠ i → c'.stores k = c.stores k ∧ c'.loaded k = c.loaded k) :
    Refines loops (State.set ⟨glob, s.thread, output⟩ i me) c' := by
  refine ⟨hglob, fun k => ?_⟩
  by_cases hk : k = i
  · subst hk
    rw [State.set_self]
    exact hme
  · obtain ⟨hstores, hloaded⟩ := hothers k hk
    rw [State.set_of_ne _ hk, hstores, hloaded]
    exact h.thread k

/-- A thread that is about to store has an increment left, so that `loc` is not at its maximum. -/
theorem Refines.toInt_incr (hmax : 2 * loops.toInt < 2 ^ 31) (h : Refines loops s c)
    (hc : (RacyCounter.system Thread).Reachable c) (hlt : c.stores i < loops.toInt) {v : ℕ}
    (hloaded : c.loaded i = some v) {loc : Int32} (hloc : loc.toInt = v) :
    (loc + 1).toInt = (v + 1 : ℕ) := by
  have hv := (bounded_of_reachable hc).loaded i v hloaded
  have hle1 := (h.thread .t1).stores_le
  have hle2 := (h.thread .t2).stores_le
  have hone : (1 : Int32).toInt = 1 := by decide
  rw [total_eq] at hv
  rw [toInt_add_of_le (by omega) (by cases i <;> omega)]
  omega

/-- Every step of a thread is a load, a store or nothing for the counter. -/
theorem Refines.advance (hmax : 2 * loops.toInt < 2 ^ 31) (h : Refines loops s c)
    (hc : (RacyCounter.system Thread).Reachable c) {t : State}
    (hstep : advance loops i s = some t) :
    ∃ c', (RacyCounter.system Thread).Reachable c' ∧ Refines loops t c' := by
  have hme := h.thread i
  unfold ThreadIncr.advance at hstep
  unfold Tracks at hme
  cases hpc : (s.thread i).pc with
  | test =>
      simp only [hpc] at hme hstep
      obtain ⟨hj, hle, hloaded⟩ := hme
      obtain rfl := Option.some.inj hstep
      refine ⟨c, hc, h.set h.glob ?_ fun _ _ => ⟨rfl, rfl⟩⟩
      by_cases hlt : (s.thread i).j < loops
      · rw [if_pos hlt]
        have hlt' := Int32.lt_iff_toInt_lt.mp hlt
        exact ⟨hj, by omega, hloaded⟩
      · rw [if_neg hlt]
        have hlt' := mt Int32.lt_iff_toInt_lt.mpr hlt
        exact ⟨by omega, hloaded⟩
  | load =>
      simp only [hpc] at hme hstep
      obtain ⟨hj, hlt, hloaded⟩ := hme
      obtain rfl := Option.some.inj hstep
      have hglob : s.glob.toInt = (c.load i).value := h.glob
      refine ⟨c.load i, hc.next (.load i hloaded), h.set hglob ?_ fun k hk => ⟨rfl, ?_⟩⟩
      · exact ⟨hj, hlt, c.value, Function.update_self .., h.glob⟩
      · exact Function.update_of_ne hk _ _
  | store loc =>
      simp only [hpc] at hme hstep
      obtain ⟨hj, hlt, v, hloaded, hloc⟩ := hme
      obtain rfl := Option.some.inj hstep
      have hadd := h.toInt_incr hmax hc hlt hloaded hloc
      refine ⟨c.store i v, hc.next (.store i v hloaded), h.set hadd ?_ fun k hk => ⟨?_, ?_⟩⟩
      · refine ⟨?_, ?_, Function.update_self ..⟩
        · simp [Counter.store, hj]
        · simp only [Counter.store, Function.update_self]
          omega
      · exact Function.update_of_ne hk _ _
      · exact Function.update_of_ne hk _ _
  | print =>
      simp only [hpc] at hme hstep
      obtain ⟨hj, hle, hloaded⟩ := hme
      obtain rfl := Option.some.inj hstep
      refine ⟨c, hc, h.set h.glob ⟨?_, hle, hloaded⟩ fun _ _ => ⟨rfl, rfl⟩⟩
      have hone : (1 : Int32).toInt = 1 := by decide
      have hl := (s.thread i).j.le_toInt
      rw [toInt_add_of_le (by omega) (by omega)]
      omega
  | returned =>
      simp only [hpc] at hstep
      cases hstep

theorem refines_of_reachable (hmin : 0 ≤ loops.toInt) (hmax : 2 * loops.toInt < 2 ^ 31)
    (h : (system loops).Reachable s) :
    ∃ c, (RacyCounter.system Thread).Reachable c ∧ Refines loops s c := by
  refine System.invariant_of_next
    (fun s => ∃ c, (RacyCounter.system Thread).Reachable c ∧ Refines loops s c) ?_ ?_ h
  · exact ⟨.zero, .start rfl, rfl, fun _ => ⟨rfl, hmin, rfl⟩⟩
  · rintro i s t ⟨c, hc, href⟩ hstep
    exact href.advance hmax hc hstep

end Refinement

section Attained

variable {loops : Int32} {s : State} {i k : Thread}

theorem ofNat_lt_iff {n : ℕ} (hn : n ≤ loops.toInt) : Int32.ofNat n < loops ↔ n < loops.toInt := by
  have hlt := loops.toInt_lt
  rw [Int32.lt_iff_toInt_lt, Int32.toInt_ofNat_of_lt (by omega)]

/-- A whole round of the loop, with no step of the other thread. -/
theorem round_alone (h : (system loops).Reachable s) {j : Int32} (hi : s.thread i = ⟨.test, j⟩)
    (hj : j < loops) :
    ∃ t, (system loops).Reachable t ∧ t.thread = Function.update s.thread i ⟨.test, j + 1⟩ ∧
      t.glob = s.glob + 1 := by
  have hrun : [i, i, i, i].foldlM (fun u k => advance loops k u) s =
      some (State.set ⟨s.glob + 1, s.thread, s.output ++ [(i, s.glob + 1)]⟩ i ⟨.test, j + 1⟩) := by
    simp [advance, hi, hj, State.set]
  exact ⟨_, System.reachable_of_schedule h [i, i, i, i] hrun, rfl, rfl⟩

/-- Any number of rounds that are left. -/
theorem rounds_alone (h : (system loops).Reachable s) {m : ℕ}
    (hi : s.thread i = ⟨.test, Int32.ofNat m⟩) (n : ℕ) (hn : (m + n : ℕ) ≤ loops.toInt) :
    ∃ t, (system loops).Reachable t ∧
      t.thread = Function.update s.thread i ⟨.test, Int32.ofNat (m + n)⟩ ∧
      t.glob = s.glob + Int32.ofNat n := by
  induction n with
  | zero => exact ⟨s, h, by rw [Nat.add_zero, ← hi, Function.update_eq_self], by simp⟩
  | succ n ih =>
      obtain ⟨t, ht, hthread, hglob⟩ := ih (by omega)
      have hj : Int32.ofNat (m + n) < loops := (ofNat_lt_iff (by omega)).mpr (by omega)
      obtain ⟨u, hu, hthread', hglob'⟩ := round_alone ht (by rw [hthread, Function.update_self]) hj
      refine ⟨u, hu, ?_, ?_⟩
      · rw [hthread', hthread, Function.update_idem, ← Nat.add_assoc, Int32.ofNat_add (m + n) 1]
        rfl
      · rw [hglob', hglob, Int32.add_assoc, Int32.ofNat_add n 1]
        rfl

/-- All rounds that are left, and the return. -/
theorem finish_alone (h : (system loops).Reachable s) {m : ℕ}
    (hi : s.thread i = ⟨.test, Int32.ofNat m⟩) (hm : m ≤ loops.toInt) :
    ∃ t, (system loops).Reachable t ∧ (t.thread i).pc = .returned ∧
      (∀ k, k ≠ i → t.thread k = s.thread k) ∧
      t.glob = s.glob + Int32.ofNat (loops.toInt.toNat - m) := by
  obtain ⟨t, ht, hthread, hglob⟩ := rounds_alone h hi (loops.toInt.toNat - m) (by omega)
  have hend : ¬ Int32.ofNat (m + (loops.toInt.toNat - m)) < loops := by
    rw [ofNat_lt_iff (by omega)]
    omega
  have hstep : advance loops i t =
      some (t.set i ⟨.returned, Int32.ofNat (m + (loops.toInt.toNat - m))⟩) := by
    simp only [advance, hthread, Function.update_self, if_neg hend]
  refine ⟨_, ht.next ⟨i, hstep⟩, by rw [State.set_self], fun k hk => ?_, hglob⟩
  rw [State.set_of_ne _ hk, hthread, Function.update_of_ne hk]

theorem greatest_attained (hmin : 0 ≤ loops.toInt) (hmax : 2 * loops.toInt < 2 ^ 31) :
    ∃ s, (system loops).Reachable s ∧ s.Joined ∧ s.glob.toInt = 2 * loops.toInt := by
  have hstart : (system loops).Reachable .initial := .start rfl
  obtain ⟨s, hs, h1, hother, hglob⟩ := finish_alone (i := .t1) (m := 0) hstart rfl hmin
  have h2 : s.thread .t2 = ⟨.test, Int32.ofNat 0⟩ := hother .t2 (by decide)
  obtain ⟨t, ht, h2', hother', hglob'⟩ := finish_alone hs h2 hmin
  refine ⟨t, ht, fun i => ?_, ?_⟩
  · cases i with
    | t1 => rw [hother' .t1 (by decide), h1]
    | t2 => exact h2'
  · have hinit : State.initial.glob = 0 := rfl
    rw [hglob', hglob, hinit, Int32.zero_add, Nat.sub_zero, ← Int32.ofNat_add,
      Int32.toInt_ofNat_of_lt (by omega)]
    omega

/-- All rounds but one of the second thread are lost: the first one has loaded zero before them and
stores one after them, and the second one loads that in its last round. -/
theorem lost_rounds {n : ℕ} (hn : (n + 1 : ℕ) = loops.toInt) :
    ∃ s, (system loops).Reachable s ∧ s.thread .t1 = ⟨.test, Int32.ofNat 1⟩ ∧
      s.thread .t2 = ⟨.store 1, Int32.ofNat n⟩ := by
  have hpos : Int32.ofNat 0 < loops := (ofNat_lt_iff (by omega)).mpr (by omega)
  have hlast : Int32.ofNat n < loops := (ofNat_lt_iff (by omega)).mpr (by omega)
  have hstart : (system loops).Reachable .initial := .start rfl
  have hload : [Thread.t1, .t1].foldlM (fun u k => advance loops k u) .initial =
      some (State.initial.set .t1 ⟨.store 0, 0⟩) := by
    have hpos' : (0 : Int32) < loops := hpos
    simp [advance, State.initial, State.set, hpos']
  have hs₁ := System.reachable_of_schedule hstart _ hload
  have h2 : (State.initial.set .t1 ⟨.store 0, 0⟩).thread .t2 = ⟨.test, Int32.ofNat 0⟩ := rfl
  obtain ⟨s₂, hs₂, hthread₂, -⟩ := rounds_alone hs₁ h2 n (by omega)
  have hstore : [Thread.t1, .t1, .t2, .t2].foldlM (fun u k => advance loops k u) s₂ =
      some ((State.set ⟨1, s₂.thread, s₂.output ++ [(.t1, 1)]⟩ .t1 ⟨.test, 1⟩).set .t2
        ⟨.store 1, Int32.ofNat n⟩) := by
    simp [advance, State.set, hthread₂, hlast]
  exact ⟨_, System.reachable_of_schedule hs₂ _ hstore, rfl, rfl⟩

/-- The first thread makes its other rounds before the second one stores two. -/
theorem least_attained (hmin : 2 ≤ loops.toInt) :
    ∃ s, (system loops).Reachable s ∧ s.Joined ∧ s.glob = 2 := by
  obtain ⟨n, hn⟩ : ∃ n : ℕ, (n + 1 : ℕ) = loops.toInt := ⟨loops.toInt.toNat - 1, by omega⟩
  obtain ⟨s, hs, h1, h2⟩ := lost_rounds hn
  obtain ⟨t, ht, h1', hother, -⟩ := finish_alone hs h1 (by omega)
  have h2' : t.thread .t2 = ⟨.store 1, Int32.ofNat n⟩ := (hother .t2 (by decide)).trans h2
  have hend : ¬ Int32.ofNat n + 1 < loops := by
    show ¬ Int32.ofNat n + Int32.ofNat 1 < loops
    rw [← Int32.ofNat_add, ofNat_lt_iff (by omega)]
    omega
  have hrun : [Thread.t2, .t2, .t2].foldlM (fun u k => advance loops k u) t =
      some (State.set ⟨2, t.thread, t.output ++ [(.t2, 2)]⟩ .t2
        ⟨.returned, Int32.ofNat n + 1⟩) := by
    simp [advance, State.set, h2', hend]
  refine ⟨_, System.reachable_of_schedule ht _ hrun, fun i => ?_, rfl⟩
  cases i with
  | t1 => exact h1'
  | t2 => rfl

end Attained

/-- However the threads interleave, `glob` ends between 2 and the number of all increments. -/
theorem glob_between {loops : Int32} (hmin : 2 ≤ loops.toInt) (hmax : 2 * loops.toInt < 2 ^ 31)
    {s : State} (h : (system loops).Reachable s) (hjoined : s.Joined) :
    2 ≤ s.glob.toInt ∧ s.glob.toInt ≤ 2 * loops.toInt := by
  obtain ⟨c, hc, href⟩ := refines_of_reachable (by omega) hmax h
  have hstores : ∀ i, (c.stores i : ℤ) = loops.toInt := by
    intro i
    have htracks := href.thread i
    unfold Tracks at htracks
    simp only [hjoined i] at htracks
    exact htracks.1
  have h1 := hstores .t1
  have h2 := hstores .t2
  rw [href.glob]
  constructor
  · have htwo := (grown_of_reachable hc).two_le ⟨.t1, by omega⟩ fun i => by
      have hi := hstores i
      omega
    exact_mod_cast htwo
  · have hvalue := (bounded_of_reachable hc).value
    rw [total_eq] at hvalue
    omega

theorem glob_between_least :
    ∃ s, (system 2).Reachable s ∧ s.Joined ∧ s.glob = 2 ∧
      2 ≤ s.glob.toInt ∧ s.glob.toInt ≤ 2 * (2 : Int32).toInt := by
  obtain ⟨s, hs, hjoined, hglob⟩ := least_attained (show 2 ≤ (2 : Int32).toInt by decide)
  exact ⟨s, hs, hjoined, hglob, glob_between (by decide) (by decide) hs hjoined⟩

section Between

variable {loops : Int32} {s : State} {i : Thread}

/-- The test of the loop and the load. -/
theorem load_alone (h : (system loops).Reachable s) {m : ℕ}
    (hi : s.thread i = ⟨.test, Int32.ofNat m⟩) (hm : m < loops.toInt) :
    ∃ t, (system loops).Reachable t ∧
      t.thread = Function.update s.thread i ⟨.store s.glob, Int32.ofNat m⟩ ∧ t.glob = s.glob := by
  have hlt : Int32.ofNat m < loops := (ofNat_lt_iff hm.le).mpr hm
  have hrun : [i, i].foldlM (fun u k => advance loops k u) s =
      some (s.set i ⟨.store s.glob, Int32.ofNat m⟩) := by
    simp [advance, hi, hlt, State.set]
  exact ⟨_, System.reachable_of_schedule h [i, i] hrun, rfl, rfl⟩

/-- The store of what was loaded before, and `printf`. -/
theorem store_alone (h : (system loops).Reachable s) {m : ℕ} {loc : Int32}
    (hi : s.thread i = ⟨.store loc, Int32.ofNat m⟩) :
    ∃ t, (system loops).Reachable t ∧
      t.thread = Function.update s.thread i ⟨.test, Int32.ofNat (m + 1)⟩ ∧ t.glob = loc + 1 := by
  have hsucc : Int32.ofNat (m + 1) = Int32.ofNat m + 1 := Int32.ofNat_add m 1
  have hrun : [i, i].foldlM (fun u k => advance loops k u) s =
      some (State.set ⟨loc + 1, s.thread, s.output ++ [(i, loc + 1)]⟩ i
        ⟨.test, Int32.ofNat (m + 1)⟩) := by
    simp [advance, hi, hsucc, State.set]
  exact ⟨_, System.reachable_of_schedule h [i, i] hrun, rfl, rfl⟩

/-- The first store of the first thread undoes `a` rounds of the second one. -/
theorem first_store_undoes {a : ℕ} (ha : a < loops.toInt) :
    ∃ s, (system loops).Reachable s ∧ s.thread .t1 = ⟨.test, Int32.ofNat 1⟩ ∧
      s.thread .t2 = ⟨.test, Int32.ofNat a⟩ ∧ s.glob = Int32.ofNat 1 := by
  have hstart : (system loops).Reachable .initial := .start rfl
  obtain ⟨s₁, hs₁, hthread₁, -⟩ := load_alone (i := .t1) (m := 0) hstart rfl (by omega)
  have h2 : s₁.thread .t2 = ⟨.test, Int32.ofNat 0⟩ := by rw [hthread₁]; rfl
  obtain ⟨s₂, hs₂, hthread₂, -⟩ := rounds_alone hs₁ h2 a (by omega)
  rw [Nat.zero_add] at hthread₂
  have h1 : s₂.thread .t1 = ⟨.store 0, Int32.ofNat 0⟩ := by rw [hthread₂, hthread₁]; rfl
  obtain ⟨s₃, hs₃, hthread₃, hglob₃⟩ := store_alone hs₂ h1
  refine ⟨s₃, hs₃, ?_, ?_, hglob₃⟩
  · rw [hthread₃]
    rfl
  · rw [hthread₃, hthread₂]
    rfl

/-- The second thread keeps what it loads after `b` more rounds of the first one, and undoes all
that follow. -/
theorem second_store_undoes {a b n : ℕ} (hn : (n + 1 : ℕ) = loops.toInt) (ha : a ≤ n) (hb : b ≤ n)
    (h : (system loops).Reachable s) (h1 : s.thread .t1 = ⟨.test, Int32.ofNat 1⟩)
    (h2 : s.thread .t2 = ⟨.test, Int32.ofNat a⟩) :
    ∃ t, (system loops).Reachable t ∧ t.Joined ∧
      t.glob = s.glob + Int32.ofNat (b + 1 + (n - a)) := by
  obtain ⟨s₁, hs₁, hthread₁, hglob₁⟩ := rounds_alone h h1 b (by omega)
  have h2₁ : s₁.thread .t2 = ⟨.test, Int32.ofNat a⟩ := by rw [hthread₁]; exact h2
  obtain ⟨s₂, hs₂, hthread₂, -⟩ := load_alone hs₁ h2₁ (by omega)
  have h1₂ : s₂.thread .t1 = ⟨.test, Int32.ofNat (1 + b)⟩ := by rw [hthread₂, hthread₁]; rfl
  obtain ⟨s₃, hs₃, h1₃, hother₃, -⟩ := finish_alone hs₂ h1₂ (by omega)
  have h2₃ : s₃.thread .t2 = ⟨.store s₁.glob, Int32.ofNat a⟩ := by
    rw [hother₃ .t2 (by decide), hthread₂]
    rfl
  obtain ⟨s₄, hs₄, hthread₄, hglob₄⟩ := store_alone hs₃ h2₃
  have h1₄ : (s₄.thread .t1).pc = .returned := by rw [hthread₄]; exact h1₃
  have h2₄ : s₄.thread .t2 = ⟨.test, Int32.ofNat (a + 1)⟩ := by rw [hthread₄]; rfl
  obtain ⟨s₅, hs₅, h2₅, hother₅, hglob₅⟩ := finish_alone hs₄ h2₄ (by omega)
  refine ⟨s₅, hs₅, fun k => ?_, ?_⟩
  · cases k with
    | t1 => rw [hother₅ .t1 (by decide), h1₄]
    | t2 => exact h2₅
  · have hleft : loops.toInt.toNat - (a + 1) = n - a := by omega
    rw [hglob₅, hglob₄, hglob₁, hleft, Int32.ofNat_add, Int32.ofNat_add, ← Int32.add_assoc,
      ← Int32.add_assoc]
    rfl

end Between

/-- No value between 2 and the number of all increments is left out. -/
theorem glob_attains {loops : Int32} (hmin : 2 ≤ loops.toInt) (hmax : 2 * loops.toInt < 2 ^ 31)
    {v : ℤ} (hv : 2 ≤ v) (hv' : v ≤ 2 * loops.toInt) :
    ∃ s, (system loops).Reachable s ∧ s.Joined ∧ s.glob.toInt = v := by
  obtain ⟨n, hn⟩ : ∃ n : ℕ, (n + 1 : ℕ) = loops.toInt := ⟨loops.toInt.toNat - 1, by omega⟩
  -- the second thread keeps `c` rounds of its own, the first one `b + 1`
  obtain ⟨b, c, hb, hc, hsum⟩ : ∃ b c : ℕ, b ≤ n ∧ c ≤ n ∧ (b + 2 + c : ℕ) = v :=
    ⟨min (v - 2).toNat n, (v - 2).toNat - min (v - 2).toNat n, by omega, by omega, by omega⟩
  have ha : n - c ≤ n := Nat.sub_le n c
  have hlt : ((n - c : ℕ) : ℤ) < loops.toInt := by omega
  obtain ⟨s, hs, h1, h2, hone⟩ := first_store_undoes hlt
  obtain ⟨t, ht, hjoined, hglob⟩ := second_store_undoes hn ha hb hs h1 h2
  refine ⟨t, ht, hjoined, ?_⟩
  rw [hglob, hone, ← Int32.ofNat_add, Int32.toInt_ofNat_of_lt (by omega)]
  omega

theorem glob_attains_three :
    ∃ s, (system 2).Reachable s ∧ s.Joined ∧ s.glob.toInt = 3 :=
  glob_attains (by decide) (by decide) (by decide) (by decide)

end TlpiExercises.ThreadIncr
