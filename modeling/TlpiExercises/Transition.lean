import Mathlib.Logic.Relation
import Mathlib.Tactic

/-!
# Transition systems and invariants

A system is a set of initial states with a step relation. Reachability is the
reflexive transitive closure of the step relation from an initial state; every
run argument goes through one induction rule.
-/
namespace TlpiExercises

/-- Initial states and one atomic step. -/
structure System (σ : Type*) where
  init : σ → Prop
  step : σ → σ → Prop

namespace System

variable {σ : Type*} (M : System σ)

/-- `s` ends some finite run of the system. -/
def Reachable (s : σ) : Prop :=
  ∃ s₀, M.init s₀ ∧ Relation.ReflTransGen M.step s₀ s

variable {M}

theorem Reachable.start {s : σ} (h : M.init s) : M.Reachable s :=
  ⟨s, h, .refl⟩

theorem Reachable.next {s t : σ} (h : M.Reachable s) (hst : M.step s t) : M.Reachable t := by
  obtain ⟨s₀, h₀, hrun⟩ := h
  exact ⟨s₀, h₀, hrun.tail hst⟩

theorem Reachable.steps {r : σ → σ → Prop} (hr : ∀ s t, r s t → M.step s t) {s t : σ}
    (h : M.Reachable s) (hst : Relation.ReflTransGen r s t) : M.Reachable t := by
  obtain ⟨s₀, h₀, hrun⟩ := h
  exact ⟨s₀, h₀, hrun.trans (Relation.ReflTransGen.mono hr _ _ hst)⟩

/-- The invariant rule. The step case may use that its source is reachable, so
an invariant already proved strengthens the next one. -/
theorem Reachable.invariant (Inv : σ → Prop) (hinit : ∀ s, M.init s → Inv s)
    (hstep : ∀ s t, M.Reachable s → Inv s → M.step s t → Inv t)
    {s : σ} (h : M.Reachable s) : Inv s := by
  obtain ⟨s₀, h₀, hrun⟩ := h
  induction hrun with
  | refl => exact hinit s₀ h₀
  | tail hrun hst ih => exact hstep _ _ ⟨s₀, h₀, hrun⟩ ih hst

/-- A schedule of partial steps of the system that can be carried out leads to a
reachable state. -/
theorem Reachable.foldlM {ι : Type*} {f : ι → σ → Option σ}
    (hf : ∀ i s t, f i s = some t → M.step s t) {s : σ} (h : M.Reachable s) (is : List ι) {t : σ}
    (hrun : is.foldlM (fun u i => f i u) s = some t) : M.Reachable t := by
  induction is generalizing s with
  | nil =>
      obtain rfl : s = t := by simpa using hrun
      exact h
  | cons i is ih =>
      rw [List.foldlM_cons, Option.bind_eq_bind, Option.bind_eq_some_iff] at hrun
      obtain ⟨u, hu, hrest⟩ := hrun
      exact ih (h.next (hf i s u hu)) hrest

/-- The system whose steps are chosen by a label, such as the thread that moves. -/
def ofNext {ι : Type*} (init : σ → Prop) (next : ι → σ → Option σ) : System σ where
  init := init
  step s t := ∃ i, next i s = some t

theorem reachable_of_schedule {ι : Type*} {init : σ → Prop} {next : ι → σ → Option σ} {s : σ}
    (h : (ofNext init next).Reachable s) (is : List ι) {t : σ}
    (hrun : is.foldlM (fun u i => next i u) s = some t) : (ofNext init next).Reachable t :=
  Reachable.foldlM (M := ofNext init next) (fun i _ _ hi => ⟨i, hi⟩) h is hrun

/-- The invariant rule for a system with one initial state and labelled steps. -/
theorem invariant_of_next {ι : Type*} {s₀ : σ} {next : ι → σ → Option σ} (Inv : σ → Prop)
    (hinit : Inv s₀) (hstep : ∀ i s t, Inv s → next i s = some t → Inv t) {s : σ}
    (h : (ofNext (· = s₀) next).Reachable s) : Inv s := by
  refine h.invariant Inv ?_ ?_
  · rintro _ rfl
    exact hinit
  · rintro s t - hs ⟨i, hi⟩
    exact hstep i s t hs hi

/-- The runs in which every step meets a condition on its label and on the state
before it. -/
def ofNextWhen {ι : Type*} (init : σ → Prop) (next : ι → σ → Option σ) (ok : ι → σ → Prop) :
    System σ where
  init := init
  step s t := ∃ i, ok i s ∧ next i s = some t

theorem invariant_of_nextWhen {ι : Type*} {s₀ : σ} {next : ι → σ → Option σ}
    {ok : ι → σ → Prop} (Inv : σ → Prop) (hinit : Inv s₀)
    (hstep : ∀ i s t, Inv s → ok i s → next i s = some t → Inv t) {s : σ}
    (h : (ofNextWhen (· = s₀) next ok).Reachable s) : Inv s := by
  refine h.invariant Inv ?_ ?_
  · rintro _ rfl
    exact hinit
  · rintro s t - hs ⟨i, hok, hi⟩
    exact hstep i s t hs hok hi

theorem reachable_of_scheduleWhen {ι : Type*} {init : σ → Prop} {next : ι → σ → Option σ}
    {ok : ι → σ → Prop} [∀ i s, Decidable (ok i s)] {s : σ}
    (h : (ofNextWhen init next ok).Reachable s) (is : List ι) {t : σ}
    (hrun : is.foldlM (fun u i => if ok i u then next i u else none) s = some t) :
    (ofNextWhen init next ok).Reachable t :=
  Reachable.foldlM (M := ofNextWhen init next ok)
    (fun i _ _ hi => ⟨i, Option.ite_none_right_eq_some.mp hi⟩) h is hrun

end System

end TlpiExercises
