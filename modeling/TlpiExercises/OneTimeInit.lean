import Mathlib.Algebra.BigOperators.Group.Finset.Basic
import Mathlib.Algebra.Order.BigOperators.Group.Finset
import TlpiExercises.Transition

/-!
# One-time initialisation with a double check

Any number of threads call `one_time_init` on the same control, each any number
of times. A step is one thread's next access to `done` or to the mutex, or the
start or the end of `initFn`; the threads' steps interleave in any order. A call
of `pthread_mutex_lock` or `pthread_mutex_unlock` that returns an error ends the
whole process.
-/
namespace TlpiExercises.OneTimeInit

/-- Where a thread is: `idle` between calls, otherwise what its call of
`one_time_init` does next. -/
inductive PC where
  | idle
  | checkDone
  | lock
  | checkDoneLocked
  | startInit
  | endInit
  | setDone
  | unlock
  | returned
  deriving DecidableEq, Repr

/-- The control, the threads, and how often `initFn` was started and completed. -/
structure State (τ : Type) where
  pc : τ → PC
  owner : Option τ
  done : Bool
  started : ℕ
  completed : ℕ
  exited : Bool

/-- `{.mutex = PTHREAD_MUTEX_INITIALIZER, .done = FALSE}` and all threads idle. -/
def State.initial (τ : Type) : State τ where
  pc _ := .idle
  owner := none
  done := false
  started := 0
  completed := 0
  exited := false

/-- Thread `t` goes on at `p`. -/
def State.goto {τ : Type} [DecidableEq τ] (s : State τ) (t : τ) (p : PC) : State τ :=
  { s with pc := Function.update s.pc t p }

/-- The next step of thread `t`. `ok` says whether a mutex call succeeds; a `lock`
that would succeed waits until the mutex is free. -/
def advance {τ : Type} [DecidableEq τ] (ok : Bool) (t : τ) (s : State τ) : Option (State τ) :=
  if s.exited then none
  else match s.pc t with
    | .idle => some (s.goto t .checkDone)
    | .checkDone => some (s.goto t (if s.done then .returned else .lock))
    | .lock =>
        if ok = false then some { s with exited := true }
        else if s.owner = none then some ({ s with owner := some t }.goto t .checkDoneLocked)
        else none
    | .checkDoneLocked => some (s.goto t (if s.done then .unlock else .startInit))
    | .startInit => some ({ s with started := s.started + 1 }.goto t .endInit)
    | .endInit => some ({ s with completed := s.completed + 1 }.goto t .setDone)
    | .setDone => some ({ s with done := true }.goto t .unlock)
    | .unlock =>
        if ok = false then some { s with exited := true }
        else some ({ s with owner := none }.goto t .returned)
    | .returned => some (s.goto t .idle)

/-- All interleavings of the threads' steps. -/
def system (τ : Type) [DecidableEq τ] : System (State τ) :=
  .ofNext (· = .initial τ) fun i : τ × Bool => advance i.2 i.1

/-- The steps between `lock` and `unlock`. -/
def PC.critical : PC → Bool
  | .checkDoneLocked | .startInit | .endInit | .setDone | .unlock => true
  | _ => false

/-- How far the initialisation is, by where the thread that holds the mutex is:
the values `done`, `started` and `completed` must have. -/
def Stage : Option PC → Bool → ℕ → ℕ → Prop
  | some .startInit, done, started, completed => done = false ∧ started = 0 ∧ completed = 0
  | some .endInit, done, started, completed => done = false ∧ started = 1 ∧ completed = 0
  | some .setDone, done, started, completed => done = false ∧ started = 1 ∧ completed = 1
  | some .unlock, done, started, completed => done = true ∧ started = 1 ∧ completed = 1
  | _, done, started, completed => started = done.toNat ∧ completed = done.toNat

/-- The mutex excludes, the initialisation follows its stages, and only calls
that saw `done` return. -/
structure Inv {τ : Type} (s : State τ) : Prop where
  holder : ∀ t, (s.pc t).critical ↔ s.owner = some t
  stage : Stage (s.owner.map s.pc) s.done s.started s.completed
  returned : ∀ t, s.pc t = .returned → s.done

theorem inv_initial (τ : Type) : Inv (State.initial τ) where
  holder t := by simp [State.initial, PC.critical]
  stage := ⟨rfl, rfl⟩
  returned t h := by simp [State.initial] at h

variable {τ : Type} {s : State τ} {t : τ}

/-- The stage of the thread inside the critical section. -/
theorem Inv.stage_of_pc (h : Inv s) {p : PC} (hpc : s.pc t = p) (hp : p.critical) :
    Stage (some p) s.done s.started s.completed := by
  have howner : s.owner = some t := (h.holder t).mp (hpc ▸ hp)
  simpa [howner, hpc] using h.stage

/-- Only a thread in the critical section holds the mutex. -/
theorem Inv.eq_of_critical (h : Inv s) {u : τ} (ht : (s.pc t).critical) (hu : (s.pc u).critical) :
    u = t := by
  have howner := (h.holder u).mp hu
  rw [(h.holder t).mp ht] at howner
  exact (Option.some.inj howner).symm

theorem Inv.exit (h : Inv s) : Inv { s with exited := true } :=
  ⟨h.holder, h.stage, h.returned⟩

variable [DecidableEq τ]

@[simp] theorem goto_self (s : State τ) (t : τ) (p : PC) : (s.goto t p).pc t = p := by
  simp [State.goto]

theorem goto_of_ne (s : State τ) {u : τ} (h : u ≠ t) (p : PC) : (s.goto t p).pc u = s.pc u := by
  simp [State.goto, h]

/-- A step outside the critical section. -/
theorem Inv.outside (h : Inv s) (hpc : (s.pc t).critical = false) {p : PC}
    (hp : p.critical = false) (hret : p = .returned → s.done) : Inv (s.goto t p) where
  holder u := by
    by_cases hu : u = t
    · subst hu
      rw [goto_self, hp]
      exact hpc ▸ h.holder u
    · rw [goto_of_ne s hu]
      exact h.holder u
  stage := by
    have hstage := h.stage
    rcases howner : s.owner with _ | u
    · simpa [State.goto, howner] using hstage
    · have hu : u ≠ t := by
        rintro rfl
        rw [(h.holder u).mpr howner] at hpc
        contradiction
      rw [howner, Option.map_some, ← goto_of_ne s hu p, ← Option.map_some, ← howner] at hstage
      exact hstage
  returned u hu := by
    by_cases hut : u = t
    · subst hut
      exact hret (by rwa [goto_self] at hu)
    · exact h.returned u (by rwa [goto_of_ne s hut] at hu)

/-- A step inside the critical section, which may change the other variables. -/
theorem Inv.inside (h : Inv s) (s₁ : State τ) (hpc : (s.pc t).critical) (hpcs : s₁.pc = s.pc)
    (howner : s₁.owner = s.owner) (hdone : s.done → s₁.done) {p : PC} (hp : p.critical)
    (hstage : Stage (some p) s₁.done s₁.started s₁.completed) : Inv (s₁.goto t p) where
  holder u := by
    by_cases hu : u = t
    · subst hu
      rw [goto_self, State.goto, howner]
      exact ⟨fun _ => (h.holder u).mp hpc, fun _ => hp⟩
    · rw [goto_of_ne s₁ hu, hpcs, State.goto, howner]
      exact h.holder u
  stage := by
    have hmap : (s₁.goto t p).owner.map (s₁.goto t p).pc = some p := by
      simp [State.goto, howner, (h.holder t).mp hpc]
    rw [hmap]
    exact hstage
  returned u hu := by
    by_cases hut : u = t
    · subst hut
      rw [goto_self] at hu
      subst hu
      contradiction
    · rw [goto_of_ne s₁ hut, hpcs] at hu
      exact hdone (h.returned u hu)

/-- Taking the free mutex. -/
theorem Inv.locked (h : Inv s) (hpc : (s.pc t).critical = false) (howner : s.owner = none) :
    Inv ({ s with owner := some t }.goto t .checkDoneLocked) where
  holder u := by
    by_cases hu : u = t
    · subst hu
      simp [State.goto, PC.critical]
    · rw [goto_of_ne _ hu]
      simp only [State.goto, Option.some.injEq, Ne.symm hu, iff_false]
      rw [h.holder u, howner]
      simp
  stage := by
    have hstage := h.stage
    rw [howner] at hstage
    simpa [State.goto, Stage] using hstage
  returned u hu := by
    by_cases hut : u = t
    · subst hut
      simp at hu
    · exact h.returned u (by rwa [goto_of_ne _ hut] at hu)

/-- Releasing the mutex after `done` is set. -/
theorem Inv.unlocked (h : Inv s) (hpc : s.pc t = .unlock) :
    Inv ({ s with owner := none }.goto t .returned) := by
  have hcritical : (s.pc t).critical := by rw [hpc]; rfl
  obtain ⟨hdone, hstarted, hcompleted⟩ := h.stage_of_pc hpc rfl
  refine ⟨?_, ?_, fun _ _ => hdone⟩
  · intro u
    by_cases hu : u = t
    · subst hu
      simp [State.goto, PC.critical]
    · rw [goto_of_ne _ hu]
      simp only [State.goto, reduceCtorEq, iff_false]
      intro hcrit
      exact hu (h.eq_of_critical hcritical hcrit)
  · simp [State.goto, Stage, hdone, hstarted, hcompleted]

/-- Every step of every thread keeps the invariant. -/
theorem inv_step (h : Inv s) {ok : Bool} {s' : State τ} (hstep : advance ok t s = some s') :
    Inv s' := by
  have hexited : ¬ s.exited := by
    intro hexited
    simp [advance, hexited] at hstep
  have hcritical : ∀ {p}, s.pc t = p → (s.pc t).critical = p.critical := fun hp => by rw [hp]
  rw [advance, if_neg hexited] at hstep
  cases hpc : s.pc t <;> simp only [hpc] at hstep
  case idle =>
    obtain rfl := Option.some.inj hstep
    exact h.outside (hcritical hpc) rfl (by simp)
  case checkDone =>
    obtain rfl := Option.some.inj hstep
    by_cases hdone : s.done
    · rw [if_pos hdone]
      exact h.outside (hcritical hpc) rfl (fun _ => hdone)
    · rw [if_neg hdone]
      exact h.outside (hcritical hpc) rfl (by simp)
  case lock =>
    split_ifs at hstep with hok howner
    · obtain rfl := Option.some.inj hstep
      exact h.exit
    · obtain rfl := Option.some.inj hstep
      exact h.locked (hcritical hpc) howner
  case checkDoneLocked =>
    obtain rfl := Option.some.inj hstep
    obtain ⟨hstarted, hcompleted⟩ := h.stage_of_pc hpc rfl
    by_cases hdone : s.done
    · rw [if_pos hdone]
      rw [hdone] at hstarted hcompleted
      exact h.inside s (p := .unlock) (hcritical hpc) rfl rfl id rfl ⟨hdone, hstarted, hcompleted⟩
    · have hfalse : s.done = false := by simpa using hdone
      rw [if_neg hdone]
      rw [hfalse] at hstarted hcompleted
      exact h.inside s (p := .startInit) (hcritical hpc) rfl rfl id rfl
        ⟨hfalse, hstarted, hcompleted⟩
  case startInit =>
    obtain rfl := Option.some.inj hstep
    obtain ⟨hdone, hstarted, hcompleted⟩ := h.stage_of_pc hpc rfl
    exact h.inside { s with started := s.started + 1 } (p := .endInit) (hcritical hpc) rfl rfl id rfl
      ⟨hdone, congrArg (· + 1) hstarted, hcompleted⟩
  case endInit =>
    obtain rfl := Option.some.inj hstep
    obtain ⟨hdone, hstarted, hcompleted⟩ := h.stage_of_pc hpc rfl
    exact h.inside { s with completed := s.completed + 1 } (p := .setDone) (hcritical hpc) rfl rfl
      id rfl ⟨hdone, hstarted, congrArg (· + 1) hcompleted⟩
  case setDone =>
    obtain rfl := Option.some.inj hstep
    obtain ⟨-, hstarted, hcompleted⟩ := h.stage_of_pc hpc rfl
    exact h.inside { s with done := true } (p := .unlock) (hcritical hpc) rfl rfl (fun _ => rfl) rfl
      ⟨rfl, hstarted, hcompleted⟩
  case unlock =>
    split_ifs at hstep with hok
    · obtain rfl := Option.some.inj hstep
      exact h.exit
    · obtain rfl := Option.some.inj hstep
      exact h.unlocked hpc
  case returned =>
    obtain rfl := Option.some.inj hstep
    exact h.outside (hcritical hpc) rfl (by simp)

theorem inv_of_reachable (h : (system τ).Reachable s) : Inv s :=
  System.invariant_of_next Inv (inv_initial τ) (fun _ _ _ hinv hstep => inv_step hinv hstep) h

theorem Stage.started_le {p : Option PC} {done : Bool} {started completed : ℕ}
    (h : Stage p done started completed) : started ≤ 1 := by
  unfold Stage at h
  split at h
  all_goals have := Bool.toNat_le done; omega

theorem Stage.completed_eq {p : Option PC} {started completed : ℕ}
    (h : Stage p true started completed) : completed = 1 := by
  unfold Stage at h
  split at h <;> simp_all

/-- In every interleaving of any threads' calls, `initFn` is started at most once,
and whenever a call returns it has been run to completion. -/
theorem initFn_once (h : (system τ).Reachable s) :
    s.started ≤ 1 ∧ ∀ t, s.pc t = .returned → s.completed = 1 := by
  have hinv := inv_of_reachable h
  refine ⟨hinv.stage.started_le, ?_⟩
  intro t ht
  have hstage := hinv.stage
  rw [hinv.returned t ht] at hstage
  exact hstage.completed_eq

/-- Both threads see `done` unset before either takes the mutex; the second one
then finds it set. -/
theorem initFn_once_two_threads :
    ∃ s : State Bool, (system Bool).Reachable s ∧ s.pc false = .returned ∧ s.pc true = .returned ∧
      s.started ≤ 1 ∧ s.completed = 1 := by
  have hreach := System.reachable_of_schedule
    (System.Reachable.start (M := system Bool) (rfl : State.initial Bool = State.initial Bool))
    [(false, true), (true, true), (false, true), (true, true), (false, true), (false, true),
      (false, true), (false, true), (false, true), (false, true), (true, true), (true, true),
      (true, true)] rfl
  exact ⟨_, hreach, rfl, rfl, (initFn_once hreach).1, (initFn_once hreach).2 true rfl⟩

section Progress

/-- The steps a call of `one_time_init` still has to make at most. -/
def PC.rank : PC → ℕ
  | .idle => 0
  | .checkDone => 7
  | .lock => 6
  | .checkDoneLocked => 5
  | .startInit => 4
  | .endInit => 3
  | .setDone => 2
  | .unlock => 1
  | .returned => 0

/-- The next step of thread `t` if it is inside a call: no new call is started. -/
def advanceInCall (ok : Bool) (t : τ) (s : State τ) : Option (State τ) :=
  if (s.pc t).rank = 0 then none else advance ok t s

/-- What all calls together have left to do. -/
def State.work [Fintype τ] (s : State τ) : ℕ := if s.exited then 0 else ∑ t, (s.pc t).rank

theorem rank_le (p : PC) : p.rank ≤ 7 := by cases p <;> decide

omit [DecidableEq τ] in
theorem work_le [Fintype τ] (s : State τ) : s.work ≤ 7 * Fintype.card τ := by
  unfold State.work
  split_ifs
  · exact Nat.zero_le _
  · have hsum := Finset.sum_le_card_nsmul Finset.univ (fun t => (s.pc t).rank) 7
      fun t _ => rank_le (s.pc t)
    rw [smul_eq_mul, Finset.card_univ, Nat.mul_comm] at hsum
    exact hsum

theorem work_goto_lt [Fintype τ] {s₁ : State τ} (hpcs : s₁.pc = s.pc) (hexited : s.exited = false)
    {p : PC} (hp : p.rank < (s.pc t).rank) : (s₁.goto t p).work < s.work := by
  have hsum : ∑ u, ((s₁.goto t p).pc u).rank < ∑ u, (s.pc u).rank := by
    refine Finset.sum_lt_sum (fun u _ => ?_) ⟨t, Finset.mem_univ t, by rwa [goto_self]⟩
    by_cases hu : u = t
    · subst hu
      rw [goto_self]
      exact hp.le
    · rw [goto_of_ne _ hu, hpcs]
  unfold State.work
  rw [hexited, if_neg Bool.false_ne_true]
  split_ifs
  · exact Nat.zero_lt_of_lt hsum
  · exact hsum

omit [DecidableEq τ] in
/-- A process that ends has nothing left to do. -/
theorem work_exit_lt [Fintype τ] (hexited : s.exited = false) (ht : (s.pc t).rank ≠ 0) :
    ({ s with exited := true } : State τ).work < s.work := by
  have hle := Finset.single_le_sum (fun u _ => Nat.zero_le (s.pc u).rank) (Finset.mem_univ t)
  unfold State.work
  rw [hexited, if_neg Bool.false_ne_true, if_pos rfl]
  omega

theorem work_lt_of_advanceInCall [Fintype τ] {ok : Bool} {s' : State τ}
    (hstep : advanceInCall ok t s = some s') : s'.work < s.work := by
  obtain ⟨hrank, hstep⟩ := Option.ite_none_left_eq_some.mp hstep
  unfold advance at hstep
  obtain ⟨hexited, hstep⟩ := Option.ite_none_left_eq_some.mp hstep
  rw [Bool.not_eq_true] at hexited
  cases hpc : s.pc t <;> simp only [hpc] at hstep
  case idle => exact absurd (by rw [hpc]; rfl) hrank
  case returned => exact absurd (by rw [hpc]; rfl) hrank
  case checkDone =>
    obtain rfl := Option.some.inj hstep
    refine work_goto_lt rfl hexited ?_
    rw [hpc]
    split_ifs <;> decide
  case lock =>
    split_ifs at hstep with hok howner
    · obtain rfl := Option.some.inj hstep
      exact work_exit_lt hexited hrank
    · obtain rfl := Option.some.inj hstep
      exact work_goto_lt rfl hexited (by rw [hpc]; decide)
  case checkDoneLocked =>
    obtain rfl := Option.some.inj hstep
    refine work_goto_lt rfl hexited ?_
    rw [hpc]
    split_ifs <;> decide
  case unlock =>
    split_ifs at hstep with hok
    · obtain rfl := Option.some.inj hstep
      exact work_exit_lt hexited hrank
    · obtain rfl := Option.some.inj hstep
      exact work_goto_lt rfl hexited (by rw [hpc]; decide)
  all_goals
    obtain rfl := Option.some.inj hstep
    exact work_goto_lt rfl hexited (by rw [hpc]; decide)

theorem length_le_work [Fintype τ] (is : List (τ × Bool)) {s s' : State τ}
    (hrun : is.foldlM (fun u i => advanceInCall i.2 i.1 u) s = some s') :
    is.length + s'.work ≤ s.work := by
  induction is generalizing s with
  | nil =>
      obtain rfl : s = s' := Option.some.inj hrun
      simp
  | cons i is ih =>
      rw [List.foldlM_cons] at hrun
      obtain ⟨u, hstep, hrest⟩ := Option.bind_eq_some_iff.mp hrun
      have hlt := work_lt_of_advanceInCall hstep
      have hle := ih hrest
      rw [List.length_cons]
      omega

/-- The thread that holds the mutex is never blocked. -/
theorem Inv.holder_advances (h : Inv s) (hexited : s.exited = false) (howner : s.owner = some t) :
    advanceInCall true t s ≠ none := by
  have hcritical := (h.holder t).mpr howner
  cases hpc : s.pc t <;> rw [hpc] at hcritical <;>
    simp_all [advanceInCall, advance, PC.critical, PC.rank]

/-- A call that cannot go on waits for the mutex. -/
theorem Inv.advances (h : Inv s) (hexited : s.exited = false) (ht : (s.pc t).rank ≠ 0) :
    ∃ u, advanceInCall true u s ≠ none := by
  cases howner : s.owner with
  | some u => exact ⟨u, h.holder_advances hexited howner⟩
  | none =>
      refine ⟨t, ?_⟩
      cases hpc : s.pc t <;> simp_all [advanceInCall, advance, PC.rank]

end Progress

/-- Once no new call is started, the calls that are under way make a bounded number of steps in
any order, and they only stop when all of them have returned or the process has exited. -/
theorem calls_return [Fintype τ] (h : (system τ).Reachable s) (is : List (τ × Bool)) {s' : State τ}
    (hrun : is.foldlM (fun u i => advanceInCall i.2 i.1 u) s = some s') :
    is.length ≤ 7 * Fintype.card τ ∧
      ((∀ t, advanceInCall true t s' = none) →
        s'.exited ∨ ∀ t, s'.pc t = .idle ∨ s'.pc t = .returned) := by
  have hreach : (system τ).Reachable s' := by
    refine System.Reachable.foldlM (fun i u v hv => ?_) h is hrun
    exact ⟨i, (Option.ite_none_left_eq_some.mp hv).2⟩
  constructor
  · have hlen := length_le_work is hrun
    have hle := work_le s
    omega
  · intro hstuck
    by_contra hnot
    rw [not_or, Bool.not_eq_true] at hnot
    obtain ⟨hexited, hall⟩ := hnot
    obtain ⟨t, ht⟩ := not_forall.mp hall
    have hrank : (s'.pc t).rank ≠ 0 := by
      cases hpc : s'.pc t <;> simp_all [PC.rank]
    obtain ⟨u, hu⟩ := (inv_of_reachable hreach).advances hexited hrank
    exact hu (hstuck u)

/-- Two calls that both wait for the mutex. -/
theorem calls_return_two :
    ∃ s s' : State Bool, (system Bool).Reachable s ∧ s.pc false = .lock ∧ s.pc true = .lock ∧
      (List.replicate 6 (false, true) ++ List.replicate 3 (true, true)).foldlM
        (fun u i => advanceInCall i.2 i.1 u) s = some s' ∧
      (s'.exited ∨ ∀ t, s'.pc t = .idle ∨ s'.pc t = .returned) := by
  have hreach := System.reachable_of_schedule
    (System.Reachable.start (M := system Bool) (rfl : State.initial Bool = State.initial Bool))
    [(false, true), (true, true), (false, true), (true, true)] rfl
  have hreturn := calls_return hreach
    (List.replicate 6 (false, true) ++ List.replicate 3 (true, true)) rfl
  exact ⟨_, _, hreach, rfl, rfl, rfl, hreturn.2 (by decide)⟩

end TlpiExercises.OneTimeInit
