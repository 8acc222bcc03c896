import TlpiExercises.Transition

/-!
# Signals and the calls of their handlers

A process has pending signals, a signal mask and a stack of the calls of handlers that are
under way. A pending signal that is not blocked may be delivered after any step; the handler runs
on top of what was interrupted, which goes on when the handler returns. A handler blocks its own
signal unless it was established with `SA_NODEFER`, and is forgotten with `SA_RESETHAND`. A signal
that is sent may discard pending ones of another kind, as `SIGCONT` and the stop signals do.
-/
namespace TlpiExercises.SignalDelivery

/-- A call of a handler: its signal, what it does next, and the mask it restores. -/
structure Frame (ι κ : Type*) where
  sig : ι
  pc : κ
  saved : ι → Bool

/-- A process. `generated`, `delivered` and `discarded` count the signals since the start. -/
structure Proc (ι κ μ : Type*) where
  pending : ι → ℕ
  blocked : ι → Bool
  handled : ι → Bool
  frames : List (Frame ι κ)
  mem : μ
  killed : Bool
  generated : ι → ℕ
  delivered : ι → ℕ
  discarded : ι → ℕ

/-- Which signals queue up and which ones discard which, the flags of the handlers, and the code.
A handler that has no next step returns; the main program sees what is pending and may change the
mask. -/
structure Program (ι κ μ : Type*) where
  queued : ι → Bool
  discards : ι → ι → Bool
  discards_self : ∀ i, discards i i = false
  nodefer : ι → Bool
  resethand : ι → Bool
  entry : κ
  handler : ι → κ → μ → Option (κ × μ)
  main : (ι → ℕ) → (ι → Bool) → μ → (ι → Bool) × μ
  exited : μ → Bool

/-- What happens next: a signal is sent or delivered, or the process makes a step of its own. -/
inductive Label (ι : Type*) where
  | generate (i : ι)
  | deliver (i : ι)
  | handler
  | main

variable {ι κ μ : Type*} [DecidableEq ι]

namespace Program

variable (P : Program ι κ μ)

/-- A signal is sent; one that does not queue up is pending once. -/
def generate (i : ι) (p : Proc ι κ μ) : Proc ι κ μ :=
  { p with
    pending := Function.update (fun k => if P.discards i k then 0 else p.pending k) i
      (if P.queued i then p.pending i + 1 else 1)
    generated := Function.update p.generated i (p.generated i + 1)
    discarded := fun k => if P.discards i k then p.discarded k + p.pending k else p.discarded k }

/-- The mask and the dispositions while the handler of `i` runs. -/
def enter (i : ι) (p : Proc ι κ μ) : Proc ι κ μ :=
  { p with
    blocked := if P.nodefer i then p.blocked else Function.update p.blocked i true
    handled := if P.resethand i then Function.update p.handled i false else p.handled
    frames := ⟨i, P.entry, p.blocked⟩ :: p.frames }

/-- A signal without a handler kills the process. -/
def deliver (i : ι) (p : Proc ι κ μ) : Proc ι κ μ :=
  let q := { p with
    pending := Function.update p.pending i (p.pending i - 1)
    delivered := Function.update p.delivered i (p.delivered i + 1) }
  if p.handled i then P.enter i q else { q with killed := true }

/-- The next step of the call on top. -/
def runHandler (f : Frame ι κ) (rest : List (Frame ι κ)) (p : Proc ι κ μ) : Proc ι κ μ :=
  match P.handler f.sig f.pc p.mem with
  | some (pc, mem) => { p with frames := { f with pc := pc } :: rest, mem := mem }
  | none => { p with frames := rest, blocked := f.saved }

def runMain (p : Proc ι κ μ) : Proc ι κ μ :=
  let r := P.main p.pending p.blocked p.mem
  { p with blocked := r.1, mem := r.2 }

/-- The main program only goes on when no handler runs. -/
def step (l : Label ι) (p : Proc ι κ μ) : Option (Proc ι κ μ) :=
  if p.killed || P.exited p.mem then none
  else match l with
    | .generate i => some (P.generate i p)
    | .deliver i =>
        if 0 < p.pending i ∧ p.blocked i = false then some (P.deliver i p) else none
    | .handler =>
        match p.frames with
        | [] => none
        | f :: rest => some (P.runHandler f rest p)
    | .main => if p.frames.isEmpty then some (P.runMain p) else none

/-- No signal was sent yet. -/
def start (handled : ι → Bool) (mem : μ) : Proc ι κ μ where
  pending _ := 0
  blocked _ := false
  handled := handled
  frames := []
  mem := mem
  killed := false
  generated _ := 0
  delivered _ := 0
  discarded _ := 0

/-- All runs in which the signals that are sent meet a condition. -/
def system (sent : ι → Prop) (handled : ι → Bool) (mem : μ) : System (Proc ι κ μ) :=
  .ofNextWhen (· = start handled mem) P.step fun l _ => ∀ i, l = .generate i → sent i

end Program

section Rules

variable {P : Program ι κ μ} {sent : ι → Prop} {handled : ι → Bool} {mem : μ} {p q : Proc ι κ μ}

/-- The steps one by one, each with what enables it. -/
inductive Program.Step (P : Program ι κ μ) (sent : ι → Prop) (p : Proc ι κ μ) :
    Proc ι κ μ → Prop
  | generate (i : ι) (hsent : sent i) : P.Step sent p (P.generate i p)
  | deliver (i : ι) (hpending : 0 < p.pending i) (hblocked : p.blocked i = false) :
      P.Step sent p (P.deliver i p)
  | handler (f : Frame ι κ) (rest : List (Frame ι κ)) (hframes : p.frames = f :: rest) :
      P.Step sent p (P.runHandler f rest p)
  | main (hframes : p.frames = []) : P.Step sent p (P.runMain p)

theorem Program.Step.of_step {l : Label ι} (hsent : ∀ i, l = .generate i → sent i)
    (h : P.step l p = some q) :
    p.killed = false ∧ P.exited p.mem = false ∧ P.Step sent p q := by
  unfold Program.step at h
  obtain ⟨hruns, h⟩ := Option.ite_none_left_eq_some.mp h
  rw [Bool.not_eq_true, Bool.or_eq_false_iff] at hruns
  refine ⟨hruns.1, hruns.2, ?_⟩
  cases l with
  | generate i =>
      obtain rfl := Option.some.inj h
      exact .generate i (hsent i rfl)
  | deliver i =>
      obtain ⟨⟨hpending, hblocked⟩, h⟩ := Option.ite_none_right_eq_some.mp h
      obtain rfl := Option.some.inj h
      exact .deliver i hpending hblocked
  | handler =>
      cases hframes : p.frames with
      | nil => simp [hframes] at h
      | cons f rest =>
          simp only [hframes, Option.some.injEq] at h
          subst h
          exact .handler f rest hframes
  | main =>
      obtain ⟨hframes, h⟩ := Option.ite_none_right_eq_some.mp h
      obtain rfl := Option.some.inj h
      exact .main (List.isEmpty_iff.mp hframes)

/-- A schedule that can be carried out, of signals that may be sent, is a run. -/
theorem Program.run_of_schedule (ls : List (Label ι)) (hsent : ∀ i, .generate i ∈ ls → sent i)
    (hrun : ls.foldlM (fun u l => P.step l u) p = some q) :
    Relation.ReflTransGen (P.system sent handled mem).step p q := by
  induction ls generalizing p with
  | nil =>
      obtain rfl : p = q := Option.some.inj hrun
      exact .refl
  | cons l ls ih =>
      rw [List.foldlM_cons, Option.bind_eq_bind, Option.bind_eq_some_iff] at hrun
      obtain ⟨u, hu, hrest⟩ := hrun
      refine .head ⟨l, fun i hi => ?_, hu⟩ (ih (fun i hi => ?_) hrest)
      · exact hsent i (hi ▸ List.mem_cons_self)
      · exact hsent i (List.mem_cons_of_mem l hi)

theorem Program.reachable_of_schedule (ls : List (Label ι))
    (hsent : ∀ i, .generate i ∈ ls → sent i)
    (hrun : ls.foldlM (fun u l => P.step l u) (start handled mem) = some p) :
    (P.system sent handled mem).Reachable p :=
  ⟨_, rfl, run_of_schedule ls hsent hrun⟩

/-- The invariant rule. The step case may use that the process has not ended, and any invariant
proved before. -/
theorem Program.invariant (Inv : Proc ι κ μ → Prop) (hstart : Inv (start handled mem))
    (hstep : ∀ p q, (P.system sent handled mem).Reachable p → p.killed = false →
      P.exited p.mem = false → Inv p → P.Step sent p q → Inv q)
    (h : (P.system sent handled mem).Reachable p) : Inv p := by
  refine h.invariant Inv ?_ ?_
  · rintro _ rfl
    exact hstart
  · rintro p q hp hinv ⟨l, hsent, hl⟩
    obtain ⟨hkilled, hexited, hstep'⟩ := Program.Step.of_step hsent hl
    exact hstep p q hp hkilled hexited hinv hstep'

/-- Every signal that was sent was delivered, is pending, was merged into a pending one, or was
discarded by another one. -/
structure Accounted (P : Program ι κ μ) (p : Proc ι κ μ) (i : ι) : Prop where
  le : p.delivered i + p.pending i + p.discarded i ≤ p.generated i
  eq_of_queued : P.queued i → p.delivered i + p.pending i + p.discarded i = p.generated i
  pos : 0 < p.generated i → 0 < p.delivered i + p.pending i + p.discarded i
  pending_le : P.queued i = false → p.pending i ≤ 1
  cause : 0 < p.discarded i → ∃ k, P.discards k i ∧ 0 < p.generated k

omit [DecidableEq ι] in
theorem Accounted.congr {i : ι} (h : Accounted P p i) (hgenerated : q.generated = p.generated)
    (hdiscarded : q.discarded = p.discarded)
    (hsum : q.delivered i + q.pending i = p.delivered i + p.pending i)
    (hpending : q.pending i ≤ p.pending i) : Accounted P q i := by
  obtain ⟨hle, heq, hpos, hone, hcause⟩ := h
  rw [← hgenerated, ← hdiscarded] at hcause
  rw [← hgenerated, ← hdiscarded, ← hsum] at hle heq hpos
  exact ⟨hle, heq, hpos, fun hq => hpending.trans (hone hq), hcause⟩

theorem Program.generated_le_generate (P : Program ι κ μ) (p : Proc ι κ μ) (i k : ι) :
    p.generated i ≤ (P.generate k p).generated i := by
  by_cases hk : i = k <;> simp [Program.generate, hk]

theorem Accounted.cause_of_generate {i : ι} (h : Accounted P p i) (k : ι)
    (hdiscarded : 0 < p.discarded i) : ∃ j, P.discards j i ∧ 0 < (P.generate k p).generated j := by
  obtain ⟨j, hj, hsent⟩ := h.cause hdiscarded
  exact ⟨j, hj, hsent.trans_le (P.generated_le_generate p j k)⟩

/-- The signal is queued, or merged into a pending one. -/
theorem Accounted.generate_self {i : ι} (h : Accounted P p i) : Accounted P (P.generate i p) i := by
  have hgenerated : (P.generate i p).generated i = p.generated i + 1 := Function.update_self ..
  have hdelivered : (P.generate i p).delivered = p.delivered := rfl
  have hpending : (P.generate i p).pending i = if P.queued i then p.pending i + 1 else 1 := by
    simp [Program.generate]
  have hdiscarded : (P.generate i p).discarded i = p.discarded i := by
    simp [Program.generate, P.discards_self]
  have hle := h.le
  refine ⟨?_, fun hq => ?_, fun _ => ?_, fun hq => ?_, hdiscarded ▸ h.cause_of_generate i⟩ <;>
    simp only [hdiscarded, hpending, hgenerated, hdelivered]
  · cases hq : P.queued i with
    | true => simp only [if_true]; omega
    | false =>
        have hone := h.pending_le hq
        simp only [Bool.false_eq_true, if_false]
        omega
  · have heq := h.eq_of_queued hq
    rw [if_pos hq]
    omega
  · split_ifs <;> omega
  · simp [hq]

/-- A pending signal is discarded by another one. -/
theorem Accounted.discard {i k : ι} (h : Accounted P p i) (hk : i ≠ k) (hdiscards : P.discards k i) :
    Accounted P (P.generate k p) i := by
  have hgenerated : (P.generate k p).generated i = p.generated i := Function.update_of_ne hk ..
  have hsent : (P.generate k p).generated k = p.generated k + 1 := Function.update_self ..
  have hpending : (P.generate k p).pending i = 0 := by simp [Program.generate, hk, hdiscards]
  have hsum : (P.generate k p).delivered i + (P.generate k p).pending i +
      (P.generate k p).discarded i = p.delivered i + p.pending i + p.discarded i := by
    have hdiscarded : (P.generate k p).discarded i = p.discarded i + p.pending i :=
      if_pos hdiscards
    have hdelivered : (P.generate k p).delivered = p.delivered := rfl
    rw [hdelivered, hdiscarded, hpending]
    omega
  refine ⟨?_, ?_, ?_, fun _ => hpending ▸ Nat.zero_le 1, fun _ => ⟨k, hdiscards, ?_⟩⟩
  · rw [hsum, hgenerated]
    exact h.le
  · rw [hsum, hgenerated]
    exact h.eq_of_queued
  · rw [hsum, hgenerated]
    exact h.pos
  · rw [hsent]
    exact Nat.succ_pos _

theorem Accounted.generate {i : ι} (h : Accounted P p i) (k : ι) :
    Accounted P (P.generate k p) i := by
  by_cases hk : i = k
  · subst hk
    exact h.generate_self
  · by_cases hdiscards : P.discards k i
    · exact h.discard hk hdiscards
    · have hgenerated : (P.generate k p).generated i = p.generated i := Function.update_of_ne hk ..
      have hdiscarded : (P.generate k p).discarded i = p.discarded i := if_neg hdiscards
      have hpending : (P.generate k p).pending i = p.pending i := by
        simp [Program.generate, hk, hdiscards]
      have hcause := h.cause_of_generate k
      obtain ⟨hle, heq, hpos, hone, -⟩ := h
      rw [← hgenerated, ← hdiscarded, ← hpending] at hle heq hpos
      exact ⟨hle, heq, hpos, fun hq => hpending ▸ hone hq, hdiscarded ▸ hcause⟩

theorem deliver_of_handled {i : ι} (hi : p.handled i) :
    P.deliver i p = P.enter i { p with
      pending := Function.update p.pending i (p.pending i - 1)
      delivered := Function.update p.delivered i (p.delivered i + 1) } :=
  if_pos hi

theorem deliver_pending (P : Program ι κ μ) (i : ι) (p : Proc ι κ μ) :
    (P.deliver i p).pending = Function.update p.pending i (p.pending i - 1) := by
  unfold Program.deliver Program.enter
  split_ifs <;> rfl

theorem deliver_delivered (P : Program ι κ μ) (i : ι) (p : Proc ι κ μ) :
    (P.deliver i p).delivered = Function.update p.delivered i (p.delivered i + 1) := by
  unfold Program.deliver Program.enter
  split_ifs <;> rfl

theorem deliver_mem (P : Program ι κ μ) (i : ι) (p : Proc ι κ μ) :
    (P.deliver i p).mem = p.mem := by
  unfold Program.deliver Program.enter
  split_ifs <;> rfl

theorem deliver_generated (P : Program ι κ μ) (i : ι) (p : Proc ι κ μ) :
    (P.deliver i p).generated = p.generated := by
  unfold Program.deliver Program.enter
  split_ifs <;> rfl

theorem deliver_discarded (P : Program ι κ μ) (i : ι) (p : Proc ι κ μ) :
    (P.deliver i p).discarded = p.discarded := by
  unfold Program.deliver Program.enter
  split_ifs <;> rfl

theorem Program.Step.delivered_le (h : P.Step sent p q) (i : ι) :
    p.delivered i ≤ q.delivered i := by
  cases h with
  | generate k _ => exact le_rfl
  | deliver k _ _ =>
      rw [deliver_delivered]
      by_cases hk : i = k
      · rw [hk, Function.update_self]
        exact Nat.le_succ _
      · rw [Function.update_of_ne hk]
  | handler f rest _ =>
      unfold Program.runHandler
      split <;> exact le_rfl
  | main _ => exact le_rfl

theorem Program.Step.generated_le (h : P.Step sent p q) (i : ι) :
    p.generated i ≤ q.generated i := by
  cases h with
  | generate k _ => exact P.generated_le_generate p i k
  | deliver k _ _ => rw [deliver_generated]
  | handler f rest _ =>
      unfold Program.runHandler
      split <;> exact le_rfl
  | main _ => exact le_rfl

theorem Accounted.deliver {i : ι} (h : Accounted P p i) {k : ι} (hpending : 0 < p.pending k) :
    Accounted P (P.deliver k p) i := by
  refine h.congr (deliver_generated ..) (deliver_discarded ..) ?_ ?_ <;> by_cases hk : i = k
  · subst hk
    simp only [deliver_pending, deliver_delivered, Function.update_self]
    omega
  · simp [deliver_pending, deliver_delivered, hk]
  · subst hk
    simp only [deliver_pending, Function.update_self]
    omega
  · simp [deliver_pending, hk]

theorem Accounted.step {i : ι} (h : Accounted P p i) (hstep : P.Step sent p q) : Accounted P q i := by
  cases hstep with
  | generate k _ => exact h.generate k
  | deliver k hpending _ => exact h.deliver hpending
  | handler f rest _ =>
      unfold Program.runHandler
      split <;> exact h.congr rfl rfl rfl le_rfl
  | main _ => exact h.congr rfl rfl rfl le_rfl

theorem accounted_of_reachable (h : (P.system sent handled mem).Reachable p) (i : ι) :
    Accounted P p i := by
  refine Program.invariant (fun p => Accounted P p i) ?_ (fun p q _ _ _ hp hpq => hp.step hpq) h
  exact ⟨le_rfl, fun _ => rfl, fun hpos => absurd hpos (Nat.lt_irrefl 0), fun _ => Nat.zero_le 1,
    fun hpos => absurd hpos (Nat.lt_irrefl 0)⟩

/-- Every call has blocked its own signal on top of the mask that it restores. -/
def Nested : (ι → Bool) → List (Frame ι κ) → Prop
  | _, [] => True
  | blocked, f :: rest =>
      f.saved f.sig = false ∧ blocked = Function.update f.saved f.sig true ∧ Nested f.saved rest

theorem Nested.blocked_of_mem {blocked : ι → Bool} {fs : List (Frame ι κ)} (h : Nested blocked fs)
    {f : Frame ι κ} (hf : f ∈ fs) : blocked f.sig := by
  induction fs generalizing blocked with
  | nil => contradiction
  | cons g rest ih =>
      obtain ⟨-, rfl, hrest⟩ := h
      rcases List.mem_cons.mp hf with rfl | hf
      · exact Function.update_self ..
      · have hsaved := ih hrest hf
        by_cases hg : f.sig = g.sig
        · rw [hg, Function.update_self]
        · rwa [Function.update_of_ne hg]

/-- No signal is handled by two calls at once. -/
theorem Nested.sig_ne {blocked : ι → Bool} {f : Frame ι κ} {rest : List (Frame ι κ)}
    (h : Nested blocked (f :: rest)) {g : Frame ι κ} (hg : g ∈ rest) : g.sig ≠ f.sig := by
  obtain ⟨hsaved, -, hrest⟩ := h
  intro heq
  have hblocked := hrest.blocked_of_mem hg
  rw [heq, hsaved] at hblocked
  contradiction

theorem Nested.step (hdefer : ∀ i, P.nodefer i = false) (h : Nested p.blocked p.frames)
    (hstep : P.Step sent p q) : Nested q.blocked q.frames := by
  cases hstep with
  | generate i _ => exact h
  | deliver i _ hblocked =>
      unfold Program.deliver
      split_ifs
      · simp only [Program.enter, hdefer i, Bool.false_eq_true, if_false]
        exact ⟨hblocked, rfl, h⟩
      · exact h
  | handler f rest hframes =>
      rw [hframes] at h
      unfold Program.runHandler
      split
      · exact h
      · exact h.2.2
  | main hframes =>
      simp only [Program.runMain, hframes]
      trivial

theorem nested_of_reachable (hdefer : ∀ i, P.nodefer i = false)
    (h : (P.system sent handled mem).Reachable p) : Nested p.blocked p.frames :=
  Program.invariant (fun p => Nested p.blocked p.frames) trivial
    (fun _ _ _ _ _ hp hpq => hp.step hdefer hpq) h

/-- Every signal that is pending has a handler. -/
structure Caught (handled : ι → Bool) (p : Proc ι κ μ) : Prop where
  kept : p.handled = handled
  pending : ∀ i, 0 < p.pending i → handled i
  alive : p.killed = false

theorem Caught.step (hreset : ∀ i, P.resethand i = false) (hsent : ∀ i, sent i → handled i)
    (h : Caught handled p) (hstep : P.Step sent p q) : Caught handled q := by
  cases hstep with
  | generate i hi =>
      refine ⟨h.kept, fun k hk => ?_, h.alive⟩
      by_cases hki : k = i
      · exact hki ▸ hsent i hi
      · refine h.pending k (hk.trans_le ?_)
        simp only [Program.generate, Function.update_of_ne hki]
        split_ifs
        · exact Nat.zero_le _
        · exact le_rfl
  | deliver i hpending _ =>
      rw [deliver_of_handled (h.kept ▸ h.pending i hpending)]
      refine ⟨?_, fun k hk => ?_, h.alive⟩
      · simp only [Program.enter, hreset i, Bool.false_eq_true, if_false]
        exact h.kept
      · by_cases hki : k = i
        · exact hki ▸ h.pending i hpending
        · exact h.pending k (by simpa [Program.enter, hki] using hk)
  | handler f rest _ =>
      unfold Program.runHandler
      split <;> exact ⟨h.kept, h.pending, h.alive⟩
  | main _ => exact ⟨h.kept, h.pending, h.alive⟩

theorem caught_of_reachable (hreset : ∀ i, P.resethand i = false)
    (hsent : ∀ i, sent i → handled i) (h : (P.system sent handled mem).Reachable p) :
    Caught handled p := by
  refine Program.invariant (Caught handled) ?_ (fun _ _ _ _ _ hp hpq => hp.step hreset hsent hpq) h
  exact ⟨rfl, fun i hi => absurd hi (Nat.lt_irrefl 0), rfl⟩

end Rules

end TlpiExercises.SignalDelivery
