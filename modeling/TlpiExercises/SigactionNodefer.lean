import TlpiExercises.SignalDelivery

/-!
# A handler that its own signal interrupts

With `SA_NODEFER` a call of the handler for `SIGINT` may be interrupted by another one, also
between the load and the store of `handlerCount += 1`. Whatever the calls in between have counted
is lost then. `main` waits for the first call that has finished and prints the count.
-/
namespace TlpiExercises.SigactionNodefer
open SignalDelivery

/-- What a call of `handler` does next: the load and the store of `handlerCount += 1`, the first
line, the load of `id`, `shouldCont = 0`, the last line, or the return. -/
inductive PC where
  | load
  | store (v : Int32)
  | loadId
  | print (id : Int32)
  | clear (id : Int32)
  | printDone (id : Int32)
  | done
  deriving DecidableEq, Repr

inductive MainPC where
  | loop
  | print
  | exited
  deriving DecidableEq, Repr

inductive Line where
  | started
  | done (id : Int32)
  | executed (times : Int32)
  deriving DecidableEq, Repr

structure Mem where
  handlerCount : Int32
  shouldCont : Bool
  pc : MainPC
  output : List Line

def Mem.initial : Mem := ⟨0, true, .loop, []⟩

def handler : PC → Mem → Option (PC × Mem)
  | .load, m => some (.store m.handlerCount, m)
  | .store v, m => some (.loadId, { m with handlerCount := v + 1 })
  | .loadId, m => some (.print m.handlerCount, m)
  | .print id, m => some (.clear id, { m with output := m.output ++ [.started] })
  | .clear id, m => some (.printDone id, { m with shouldCont := false })
  | .printDone id, m => some (.done, { m with output := m.output ++ [.done id] })
  | .done, _ => none

def main (m : Mem) : Mem :=
  match m.pc with
  | .loop => if m.shouldCont then m else { m with pc := .print }
  | .print => { m with pc := .exited, output := m.output ++ [.executed m.handlerCount] }
  | .exited => m

/-- `SIGINT` is the only signal, and its handler does not block it. -/
def program : Program Unit PC Mem where
  queued _ := false
  discards _ _ := false
  discards_self _ := rfl
  nodefer _ := true
  resethand _ := false
  entry := .load
  handler _ := handler
  main _ blocked m := (blocked, main m)
  exited m := m.pc = .exited

/-- The runs, from the call of `sigaction` on. -/
def system : System (Proc Unit PC Mem) :=
  program.system (fun _ => True) (fun _ => true) .initial

section Bounds

variable {p q : Proc Unit PC Mem} {c : ℕ}

/-- The call has stored its increment. -/
def PC.stored : PC → Bool
  | .load | .store _ => false
  | _ => true

/-- The calls that have not stored yet. -/
def unstored : List (Frame Unit PC) → ℕ
  | [] => 0
  | f :: rest => (if f.pc.stored then 0 else 1) + unstored rest

/-- What a call has loaded leaves room for its own increment and for those of the calls below. -/
def Loaded (d : ℕ) : List (Frame Unit PC) → Prop
  | [] => True
  | f :: rest =>
      (∀ v, f.pc = .store v → ∃ w, v = .ofNat w ∧ w + unstored (f :: rest) ≤ d) ∧ Loaded d rest

theorem Loaded.mono {d d' : ℕ} (hd : d ≤ d') {fs : List (Frame Unit PC)} (h : Loaded d fs) :
    Loaded d' fs := by
  induction fs with
  | nil => trivial
  | cons f rest ih =>
      refine ⟨fun v hv => ?_, ih h.2⟩
      obtain ⟨w, hw, hle⟩ := h.1 v hv
      exact ⟨w, hw, hle.trans hd⟩

/-- The count is `c` as an `int`. -/
structure Inv (c : ℕ) (p : Proc Unit PC Mem) : Prop where
  value : p.mem.handlerCount = .ofNat c
  count : c + unstored p.frames ≤ p.delivered ()
  loaded : Loaded (p.delivered ()) p.frames
  stored : ∀ f ∈ p.frames, f.pc.stored → 0 < c
  cleared : p.mem.shouldCont = false → 0 < c
  leaves : p.mem.pc = .print → p.mem.shouldCont = false
  printed : ∀ v, .executed v ∈ p.mem.output → ∃ m, 1 ≤ m ∧ m ≤ p.delivered () ∧ v = .ofNat m

theorem Inv.deliver (h : Inv c p) (hp : p.handled ()) : Inv c (program.deliver () p) := by
  rw [deliver_of_handled hp]
  obtain ⟨hvalue, hcount, hloaded, hstored, hcleared, hleaves, hprinted⟩ := h
  have hdelivered : Function.update p.delivered () (p.delivered () + 1) () = p.delivered () + 1 :=
    Function.update_self ..
  refine ⟨hvalue, ?_, ?_, fun f hf hpc => ?_, hcleared, hleaves, fun v hv => ?_⟩
  · show c + (1 + unstored p.frames) ≤ Function.update p.delivered () (p.delivered () + 1) ()
    omega
  · refine ⟨fun v hv => (by cases hv), hloaded.mono ?_⟩
    show p.delivered () ≤ Function.update p.delivered () (p.delivered () + 1) ()
    omega
  · rcases List.mem_cons.mp hf with rfl | hf
    · cases hpc
    · exact hstored f hf hpc
  · obtain ⟨m, hpos, hle, hm⟩ := hprinted v hv
    refine ⟨m, hpos, ?_, hm⟩
    show m ≤ Function.update p.delivered () (p.delivered () + 1) ()
    omega

/-- A step of a call that changes neither the count nor whether the call has stored. -/
theorem Inv.next (h : Inv c p) {f : Frame Unit PC} {rest : List (Frame Unit PC)}
    (hframes : p.frames = f :: rest) {pc : PC} {m : Mem} (hsame : pc.stored = f.pc.stored)
    (hpc : ∀ v, pc = .store v → v = p.mem.handlerCount)
    (hcount : m.handlerCount = p.mem.handlerCount) (hmain : m.pc = p.mem.pc)
    (hcont : m.shouldCont = p.mem.shouldCont ∨ f.pc.stored ∧ m.shouldCont = false)
    (houtput : ∀ v, .executed v ∈ m.output → .executed v ∈ p.mem.output) :
    Inv c { p with frames := { f with pc := pc } :: rest, mem := m } := by
  obtain ⟨hvalue, hle, hloaded, hstored, hcleared, hleaves, hprinted⟩ := h
  rw [hframes] at hle hloaded hstored
  have hunstored : unstored ({ f with pc := pc } :: rest) = unstored (f :: rest) := by
    simp only [unstored, hsame]
  refine ⟨hcount.trans hvalue, by rwa [hunstored], ⟨fun v hv => ?_, hloaded.2⟩,
    fun g hg hgs => ?_, fun hnot => ?_, fun hprint => ?_, fun v hv => hprinted v (houtput v hv)⟩
  · rw [hunstored, hpc v hv]
    exact ⟨c, hvalue, hle⟩
  · rcases List.mem_cons.mp hg with rfl | hg
    · exact hstored f List.mem_cons_self (hsame ▸ hgs)
    · exact hstored g (List.mem_cons_of_mem f hg) hgs
  · rcases hcont with heq | ⟨hs, -⟩
    · exact hcleared (heq ▸ hnot)
    · exact hstored f List.mem_cons_self hs
  · rcases hcont with heq | ⟨-, hfalse⟩
    · rw [heq]
      exact hleaves (hmain ▸ hprint)
    · exact hfalse

/-- The store of what was loaded, however much was counted since. -/
theorem Inv.store (h : Inv c p) {f : Frame Unit PC} {rest : List (Frame Unit PC)}
    (hframes : p.frames = f :: rest) {v : Int32} (hf : f.pc = .store v) :
    ∃ c', Inv c' { p with
      frames := { f with pc := .loadId } :: rest
      mem := { p.mem with handlerCount := v + 1 } } := by
  obtain ⟨hvalue, hle, hloaded, hstored, hcleared, hleaves, hprinted⟩ := h
  rw [hframes] at hloaded
  obtain ⟨w, hw, hroom⟩ := hloaded.1 v hf
  have hunstored : unstored (f :: rest) = 1 + unstored rest := by simp [unstored, hf, PC.stored]
  refine ⟨w + 1, ?_, ?_, ⟨fun w hw => (by cases hw), hloaded.2⟩, fun _ _ _ => Nat.succ_pos w,
    fun _ => Nat.succ_pos w, hleaves, hprinted⟩
  · rw [Int32.ofNat_add, ← hw]
    rfl
  · show w + 1 + (0 + unstored rest) ≤ p.delivered ()
    omega

theorem Inv.handler (h : Inv c p) {f : Frame Unit PC} {rest : List (Frame Unit PC)}
    (hframes : p.frames = f :: rest) : ∃ c', Inv c' (program.runHandler f rest p) := by
  obtain ⟨sig, pc, saved⟩ := f
  cases pc with
  | load =>
      exact ⟨c, h.next hframes rfl (fun v hv => (PC.store.inj hv).symm) rfl rfl (.inl rfl)
        fun _ => id⟩
  | store v => exact h.store hframes rfl
  | loadId => exact ⟨c, h.next hframes rfl (fun v hv => nomatch hv) rfl rfl (.inl rfl) fun _ => id⟩
  | print id =>
      exact ⟨c, h.next hframes rfl (fun v hv => nomatch hv) rfl rfl (.inl rfl) (by simp)⟩
  | clear id =>
      exact ⟨c, h.next hframes rfl (fun v hv => nomatch hv) rfl rfl (.inr ⟨rfl, rfl⟩)
        fun _ hv => hv⟩
  | printDone id =>
      exact ⟨c, h.next hframes rfl (fun v hv => nomatch hv) rfl rfl (.inl rfl) (by simp)⟩
  | done =>
      obtain ⟨hvalue, hle, hloaded, hstored, hcleared, hleaves, hprinted⟩ := h
      rw [hframes] at hle hloaded hstored
      refine ⟨c, hvalue, ?_, hloaded.2, fun g hg => hstored g (List.mem_cons_of_mem _ hg), hcleared,
        hleaves, hprinted⟩
      have hle' : c + (0 + unstored rest) ≤ p.delivered () := hle
      show c + unstored rest ≤ p.delivered ()
      omega

theorem Inv.main (h : Inv c p) : Inv c (program.runMain p) := by
  obtain ⟨hvalue, hle, hloaded, hstored, hcleared, hleaves, hprinted⟩ := h
  have hmain : (program.runMain p).mem = SigactionNodefer.main p.mem := rfl
  unfold SigactionNodefer.main at hmain
  cases hpc : p.mem.pc <;> simp only [hpc] at hmain
  case loop =>
    by_cases hcont : p.mem.shouldCont
    · rw [if_pos hcont] at hmain
      exact ⟨hmain ▸ hvalue, hle, hloaded, hstored, hmain ▸ hcleared, hmain ▸ hleaves,
        hmain ▸ hprinted⟩
    · rw [if_neg hcont] at hmain
      refine ⟨hmain ▸ hvalue, hle, hloaded, hstored, hmain ▸ hcleared, fun _ => ?_,
        hmain ▸ hprinted⟩
      rw [hmain]
      simpa using hcont
  case print =>
    have hpos := hcleared (hleaves hpc)
    refine ⟨hmain ▸ hvalue, hle, hloaded, hstored, hmain ▸ hcleared, fun hprint => ?_,
      fun v hv => ?_⟩
    · rw [hmain] at hprint
      cases hprint
    · rw [hmain] at hv
      rcases List.mem_append.mp hv with hv | hv
      · exact hprinted v hv
      · obtain rfl : v = p.mem.handlerCount := by simpa using hv
        refine ⟨c, hpos, ?_, hvalue⟩
        show c ≤ p.delivered ()
        omega
  case exited =>
    exact ⟨hmain ▸ hvalue, hle, hloaded, hstored, hmain ▸ hcleared, hmain ▸ hleaves,
      hmain ▸ hprinted⟩

theorem inv_of_reachable (h : system.Reachable p) : ∃ c, Inv c p := by
  have hstart : Inv 0 (Program.start (fun _ => true) .initial) :=
    ⟨rfl, le_rfl, trivial, fun _ hf => absurd hf List.not_mem_nil, fun hnot => (nomatch hnot),
      fun hprint => (nomatch hprint), fun _ hv => absurd hv List.not_mem_nil⟩
  refine Program.invariant (fun p => ∃ c, Inv c p) ⟨0, hstart⟩ ?_ h
  rintro p q hp _ _ ⟨c, hinv⟩ hstep
  cases hstep with
  | generate i _ =>
      exact ⟨c, hinv.value, hinv.count, hinv.loaded, hinv.stored, hinv.cleared, hinv.leaves,
        hinv.printed⟩
  | deliver i hpending _ =>
      have hcaught := caught_of_reachable (fun _ => rfl) (fun _ _ => rfl) hp
      exact ⟨c, hinv.deliver (hcaught.kept ▸ rfl)⟩
  | handler f rest hframes => exact hinv.handler hframes
  | main hframes => exact ⟨c, hinv.main⟩

end Bounds

section Attained

variable {p : Proc Unit PC Mem}

/-- `main` is in its loop and nothing keeps a signal from being delivered. -/
structure Open (p : Proc Unit PC Mem) : Prop where
  reachable : system.Reachable p
  alive : p.killed = false
  blocked : p.blocked () = false
  handled : p.handled () = true
  loop : p.mem.pc = .loop

theorem Open.deliver (h : Open p) :
    ∃ q, Open q ∧ q.frames = ⟨(), .load, p.blocked⟩ :: p.frames ∧ q.mem = p.mem ∧
      q.delivered () = p.delivered () + 1 := by
  obtain ⟨hreach, halive, hblocked, hhandled, hloop⟩ := h
  have hgenerate : program.step (.generate ()) p = some (program.generate () p) := by
    simp [Program.step, program, halive, hloop]
  have hdeliver : program.step (.deliver ()) (program.generate () p) =
      some (program.deliver () (program.generate () p)) := by
    simp [Program.step, Program.generate, program, halive, hloop, hblocked]
  have hq : program.deliver () (program.generate () p) = _ := deliver_of_handled hhandled
  have hreach' := (hreach.next ⟨_, fun _ _ => trivial, hgenerate⟩).next
    ⟨_, fun _ _ => trivial, hdeliver⟩
  rw [hq] at hreach'
  refine ⟨_, ⟨hreach', halive, hblocked, hhandled, hloop⟩, rfl, rfl, ?_⟩
  simp [Program.enter, Program.generate]

theorem Open.handler (h : Open p) {saved : Unit → Bool} {pc pc' : PC}
    {rest : List (Frame Unit PC)} (hframes : p.frames = ⟨(), pc, saved⟩ :: rest) {m : Mem}
    (hrun : handler pc p.mem = some (pc', m)) (hm : m.pc = .loop) :
    ∃ q, Open q ∧ q.frames = ⟨(), pc', saved⟩ :: rest ∧ q.mem = m ∧
      q.delivered = p.delivered := by
  obtain ⟨hreach, halive, hblocked, hhandled, hloop⟩ := h
  have hstep : program.step .handler p =
      some { p with frames := ⟨(), pc', saved⟩ :: rest, mem := m } := by
    have hrun' : program.handler () pc p.mem = some (pc', m) := hrun
    have hexited : program.exited p.mem = false := by simp [program, hloop]
    simp [Program.step, Program.runHandler, halive, hexited, hframes, hrun']
  exact ⟨_, ⟨hreach.next ⟨_, fun _ _ => trivial, hstep⟩, halive, hblocked, hhandled, hm⟩,
    rfl, rfl, rfl⟩

theorem Open.return (h : Open p) {saved : Unit → Bool} {rest : List (Frame Unit PC)}
    (hframes : p.frames = ⟨(), .done, saved⟩ :: rest) (hsaved : saved () = false) :
    ∃ q, Open q ∧ q.frames = rest ∧ q.mem = p.mem ∧ q.delivered = p.delivered := by
  obtain ⟨hreach, halive, hblocked, hhandled, hloop⟩ := h
  have hstep : program.step .handler p = some { p with frames := rest, blocked := saved } := by
    have hrun : program.handler () .done p.mem = none := rfl
    have hexited : program.exited p.mem = false := by simp [program, hloop]
    simp [Program.step, Program.runHandler, halive, hexited, hframes, hrun]
  exact ⟨_, ⟨hreach.next ⟨_, fun _ _ => trivial, hstep⟩, halive, hsaved, hhandled, hloop⟩,
    rfl, rfl, rfl⟩

/-- A call that has loaded the count runs to its end. -/
theorem Open.finish (h : Open p) {v : Int32} {saved : Unit → Bool} {rest : List (Frame Unit PC)}
    (hframes : p.frames = ⟨(), .store v, saved⟩ :: rest) (hsaved : saved () = false) :
    ∃ q, Open q ∧ q.frames = rest ∧ q.mem.handlerCount = v + 1 ∧ q.mem.shouldCont = false ∧
      q.delivered = p.delivered := by
  obtain ⟨p₁, h₁, hframes₁, hmem₁, hd₁⟩ := h.handler hframes rfl h.loop
  obtain ⟨p₂, h₂, hframes₂, hmem₂, hd₂⟩ := h₁.handler hframes₁ rfl h₁.loop
  obtain ⟨p₃, h₃, hframes₃, hmem₃, hd₃⟩ := h₂.handler hframes₂ rfl h₂.loop
  obtain ⟨p₄, h₄, hframes₄, hmem₄, hd₄⟩ := h₃.handler hframes₃ rfl h₃.loop
  obtain ⟨p₅, h₅, hframes₅, hmem₅, hd₅⟩ := h₄.handler hframes₄ rfl h₄.loop
  obtain ⟨p₆, h₆, hframes₆, hmem₆, hd₆⟩ := h₅.return hframes₅ hsaved
  refine ⟨p₆, h₆, hframes₆, ?_, ?_, ?_⟩
  · rw [hmem₆, hmem₅, hmem₄, hmem₃, hmem₂, hmem₁]
  · rw [hmem₆, hmem₅, hmem₄]
  · rw [hd₆, hd₅, hd₄, hd₃, hd₂, hd₁]

/-- A call up to the load of the count. -/
theorem Open.load (h : Open p) :
    ∃ q, Open q ∧ q.frames = ⟨(), .store p.mem.handlerCount, p.blocked⟩ :: p.frames ∧
      q.mem = p.mem ∧ q.delivered () = p.delivered () + 1 := by
  obtain ⟨p₁, h₁, hframes₁, hmem₁, hd₁⟩ := h.deliver
  obtain ⟨p₂, h₂, hframes₂, hmem₂, hd₂⟩ := h₁.handler hframes₁ rfl h₁.loop
  refine ⟨p₂, h₂, ?_, hmem₂.trans hmem₁, by rw [hd₂, hd₁]⟩
  rw [hframes₂, hmem₁]

/-- Any number of calls one after the other, on top of what is interrupted. -/
theorem Open.calls (h : Open p) (n : ℕ) :
    ∃ q, Open q ∧ q.frames = p.frames ∧ q.mem.handlerCount = p.mem.handlerCount + .ofNat n ∧
      q.delivered () = p.delivered () + n := by
  induction n with
  | zero => exact ⟨p, h, rfl, (Int32.add_zero _).symm, rfl⟩
  | succ n ih =>
      obtain ⟨p₁, h₁, hframes₁, hcount₁, hd₁⟩ := ih
      obtain ⟨p₂, h₂, hframes₂, -, hd₂⟩ := h₁.load
      obtain ⟨p₃, h₃, hframes₃, hcount₃, -, hd₃⟩ := h₂.finish hframes₂ h₁.blocked
      refine ⟨p₃, h₃, hframes₃.trans hframes₁, ?_, ?_⟩
      · rw [hcount₃, hcount₁, Int32.ofNat_add, Int32.add_assoc]
        rfl
      · rw [hd₃, hd₂, hd₁, Nat.add_assoc]

end Attained

/-- The number that is printed at the end can be any one from 1 to the number of calls, as an
`int`, and no other one. -/
theorem executed_iff (n : ℕ) (v : Int32) :
    (∃ p, system.Reachable p ∧ .executed v ∈ p.mem.output ∧ p.delivered () = n) ↔
      ∃ m, 1 ≤ m ∧ m ≤ n ∧ v = .ofNat m := by
  constructor
  · rintro ⟨p, hp, hv, rfl⟩
    obtain ⟨c, hinv⟩ := inv_of_reachable hp
    exact hinv.printed v hv
  · rintro ⟨m, hpos, hle, rfl⟩
    have hstart : Open (Program.start (fun _ => true) .initial) := ⟨.start rfl, rfl, rfl, rfl, rfl⟩
    have hfirst := hstart.calls (m - 1)
    simp only [Program.start, Mem.initial, Nat.zero_add, Int32.zero_add] at hfirst
    -- all calls after the load of the one that makes the last store are lost
    obtain ⟨p₁, h₁, hframes₁, hcount₁, hd₁⟩ := hfirst
    obtain ⟨p₂, h₂, hframes₂, -, hd₂⟩ := h₁.load
    obtain ⟨p₃, h₃, hframes₃, -, hd₃⟩ := h₂.calls (n - m)
    obtain ⟨p₄, h₄, hframes₄, hcount₄, hcont₄, hd₄⟩ :=
      h₃.finish (hframes₃.trans hframes₂) h₁.blocked
    have hnone : p₄.frames = [] := hframes₄.trans hframes₁
    have hrun : [.main, .main].foldlM (fun u l => program.step l u) p₄ = some { p₄ with
        mem := { p₄.mem with
          pc := .exited
          output := p₄.mem.output ++ [.executed p₄.mem.handlerCount] } } := by
      simp [Program.step, Program.runMain, program, main, h₄.alive, h₄.loop, hnone, hcont₄]
    have hreach := System.Reachable.foldlM (M := system)
      (fun l _ _ hl => ⟨l, fun _ _ => trivial, hl⟩) h₄.reachable _ hrun
    refine ⟨_, hreach, List.mem_append_right _ ?_, ?_⟩
    · have hm : p₄.mem.handlerCount = .ofNat m := by
        rw [hcount₄, hcount₁, show m = m - 1 + 1 by omega, Int32.ofNat_add]
        rfl
      rw [hm]
      exact List.mem_singleton_self _
    · show p₄.delivered () = n
      rw [hd₄, hd₃, hd₂, hd₁]
      omega

end TlpiExercises.SigactionNodefer
