import Mathlib.Algebra.BigOperators.Group.Finset.Basic
import Mathlib.Algebra.Order.BigOperators.Group.Finset
import Mathlib.Data.Fintype.Basic
import TlpiExercises.Transition

/-!
# Appending to one file from several processes

Any number of processes run `atomic-append` on the same regular file, each with its own
options. A step is one system call of one process. A call may fail, which ends its
process, and a `write` may write fewer bytes than asked, but at least one. With
`O_APPEND` a `write` goes to the end of the file; without it, to the offset that the
`lseek` before it has set.
-/
namespace TlpiExercises.AtomicAppend

/-- What `readOpts` stores. -/
structure Args where
  append : Bool
  bytes : Int64
  bufferSize : Int32
  deriving DecidableEq, Repr

/-- The third argument of `write`: `min(bufferSize, bytes - i)`, as a `size_t`. -/
def Args.count (a : Args) (i : Int32) : ℕ :=
  (if a.bufferSize.toInt64 < a.bytes - i.toInt64 then a.bufferSize.toInt64
    else a.bytes - i.toInt64).toUInt64.toNat

/-- What `readOpts` returns, for a number of bytes that an `int` can count. -/
structure Options extends Args where
  bytes_pos : 0 < bytes.toInt
  bytes_le : bytes.toInt < 2 ^ 31
  bufferSize_pos : 0 < bufferSize.toInt

/-- `'b'` with `O_APPEND`, otherwise `'a'`. -/
def Options.character (o : Options) : UInt8 := if o.append then 98 else 97

/-- The system call a process makes next, or how it ended. -/
inductive PC where
  | openFile
  | lseek
  | write
  | close
  | exited
  | failed
  deriving DecidableEq, Repr

/-- The top of the loop: `i < bytes`. -/
def Options.loop (o : Options) (i : Int32) : PC :=
  if i.toInt64 < o.bytes then if o.append then .write else .lseek else .close

structure Proc where
  pc : PC
  i : Int32
  offset : ℕ
  deriving DecidableEq, Repr

/-- The file and the processes. -/
structure State (ι : Type) where
  content : List UInt8
  procs : ι → Proc

/-- The bytes of a file after a write; a gap before the offset is filled with zeros. -/
def writeAt (content : List UInt8) (offset : ℕ) (data : List UInt8) : List UInt8 :=
  content.take offset ++ List.replicate (offset - content.length) 0 ++ data ++
    content.drop (offset + data.length)

section Steps

variable {ι : Type} [DecidableEq ι] (opts : ι → Options)

def State.setProc (s : State ι) (p : ι) (c : Proc) : State ι :=
  { s with procs := Function.update s.procs p c }

/-- Process `p` has written `cnt` bytes of its buffer. -/
def State.write (s : State ι) (p : ι) (cnt : ℕ) : State ι :=
  let o := opts p
  let c := s.procs p
  let offset := if o.append then s.content.length else c.offset
  let i := c.i + Int32.ofInt cnt
  { s with content := writeAt s.content offset (List.replicate cnt o.character) }.setProc p
    ⟨o.loop i, i, offset + cnt⟩

/-- The next system call of process `p`; it fails, or returns a number that only `write`
looks at. -/
def advance (p : ι) (reply : Option ℕ) (s : State ι) : Option (State ι) :=
  let o := opts p
  let c := s.procs p
  match c.pc, reply with
  | .exited, _ | .failed, _ => none
  | _, none => some (s.setProc p { c with pc := .failed })
  | .openFile, some _ => some (s.setProc p ⟨o.loop 0, 0, 0⟩)
  | .lseek, some _ => some (s.setProc p { c with pc := .write, offset := s.content.length })
  | .write, some cnt =>
      if 0 < cnt ∧ cnt ≤ o.count c.i then some (s.write opts p cnt) else none
  | .close, some _ => some (s.setProc p { c with pc := .exited })

/-- All processes are about to open the file, which has this content. -/
def State.initial (content : List UInt8) : State ι := ⟨content, fun _ => ⟨.openFile, 0, 0⟩⟩

/-- All interleavings of the processes' system calls. -/
def runs (content : List UInt8) : System (State ι) :=
  .ofNext (· = .initial content) fun l : ι × Option ℕ => advance opts l.1 l.2

/-- Every process has written its bytes and closed the file. -/
def State.Finished (s : State ι) : Prop := ∀ p, (s.procs p).pc = .exited

end Steps

/-- The bytes a process has written so far. -/
def Proc.written (c : Proc) : ℕ := c.i.toInt.toNat

/-- The bytes a process has to write. -/
def Options.total (o : Options) : ℕ := o.bytes.toInt.toNat

namespace Args

variable {a : Args} {i : Int32}

theorem toInt_lt : i.toInt64 < a.bytes ↔ i.toInt < a.bytes.toInt := by
  rw [Int64.lt_iff_toInt_lt, Int32.toInt_toInt64]

theorem toInt_sub (h₀ : 0 ≤ i.toInt) (h : i.toInt < a.bytes.toInt) :
    (a.bytes - i.toInt64).toInt = a.bytes.toInt - i.toInt := by
  rw [Int64.toInt_sub_of_le, Int32.toInt_toInt64]
  · rwa [Int64.le_iff_toInt_le, Int32.toInt_toInt64]
  · rw [Int64.le_iff_toInt_le, Int32.toInt_toInt64]
    exact h.le

/-- The count is the smaller of the buffer size and the bytes that are left. -/
theorem count_eq (hsize : 0 ≤ a.bufferSize.toInt) (h₀ : 0 ≤ i.toInt)
    (h : i.toInt < a.bytes.toInt) :
    (a.count i : ℤ) = min a.bufferSize.toInt (a.bytes.toInt - i.toInt) := by
  have hsub := toInt_sub h₀ h
  have hnat : ∀ n : Int64, 0 ≤ n.toInt → (n.toUInt64.toNat : ℤ) = n.toInt := by
    intro n hn
    rw [Int64.toNat_toUInt64_of_le (Int64.le_iff_toInt_le.mpr hn), Int64.toNatClampNeg,
      Int.toNat_of_nonneg hn]
  rw [count]
  split_ifs with hlt
  all_goals
    rw [Int64.lt_iff_toInt_lt, hsub, Int32.toInt_toInt64] at hlt
  · rw [hnat _ (by rwa [Int32.toInt_toInt64]), Int32.toInt_toInt64]
    omega
  · rw [hnat _ (by rw [hsub]; omega), hsub]
    omega

end Args

theorem Options.count_eq {o : Options} {i : Int32} (h₀ : 0 ≤ i.toInt)
    (h : i.toInt < o.bytes.toInt) :
    (o.count i : ℤ) = min o.bufferSize.toInt (o.bytes.toInt - i.toInt) :=
  Args.count_eq o.bufferSize_pos.le h₀ h

/-- A process counts up to its number of bytes and leaves the loop exactly there. -/
structure Proc.Ok (o : Options) (c : Proc) : Prop where
  start : c.pc = .openFile → c.i = 0
  nonneg : 0 ≤ c.i.toInt
  le : c.i.toInt ≤ o.bytes.toInt
  more : c.pc = .lseek ∨ c.pc = .write → c.i.toInt < o.bytes.toInt
  done : c.pc = .close ∨ c.pc = .exited → c.i.toInt = o.bytes.toInt

namespace Proc.Ok

variable {o : Options} {c : Proc}

theorem loop {i : Int32} {offset : ℕ} (h₀ : 0 ≤ i.toInt) (h : i.toInt ≤ o.bytes.toInt) :
    Proc.Ok o ⟨o.loop i, i, offset⟩ := by
  have hloop : o.loop i = if i.toInt < o.bytes.toInt then if o.append then .write else .lseek
      else .close := by
    simp only [Options.loop, Args.toInt_lt]
  refine ⟨?_, h₀, h, ?_, ?_⟩
  · intro hpc
    dsimp only at hpc
    rw [hloop] at hpc
    split_ifs at hpc
  · intro hpc
    by_contra hge
    simp [hloop, hge] at hpc
  · intro hpc
    by_contra hne
    have hlt : i.toInt < o.bytes.toInt := lt_of_le_of_ne h hne
    cases happ : o.append <;> simp [hloop, hlt, happ] at hpc

/-- Adding what `write` returned does not overflow `i`. -/
theorem toInt_add (h : Proc.Ok o c) (hpc : c.pc = .write) {cnt : ℕ} (hcnt : cnt ≤ o.count c.i) :
    (c.i + Int32.ofInt cnt).toInt = c.i.toInt + cnt ∧ c.i.toInt + cnt ≤ o.bytes.toInt := by
  have hlt := h.more (.inr hpc)
  have hcount := Options.count_eq h.nonneg hlt
  have hle := o.bytes_le
  have h₀ := h.nonneg
  have hofInt : (Int32.ofInt cnt).toInt = cnt := Int32.toInt_ofInt_of_le (by omega) (by omega)
  refine ⟨?_, by omega⟩
  rw [Int32.toInt_add, hofInt]
  exact Int.bmod_eq_of_le (by omega) (by omega)

theorem written_add (h : Proc.Ok o c) (hpc : c.pc = .write) {cnt : ℕ} (hcnt : cnt ≤ o.count c.i)
    (pc : PC) (offset : ℕ) :
    Proc.written ⟨pc, c.i + Int32.ofInt cnt, offset⟩ = c.written + cnt := by
  have hi := (h.toInt_add hpc hcnt).1
  have hnonneg := h.nonneg
  simp only [Proc.written, hi]
  omega

theorem written_lt (h : Proc.Ok o c) (hpc : c.pc = .lseek ∨ c.pc = .write) :
    c.written < o.total := by
  have hlt := h.more hpc
  have hnonneg := h.nonneg
  simp only [Proc.written, Options.total]
  omega

theorem written_exited (h : Proc.Ok o c) (hpc : c.pc = .exited) : c.written = o.total := by
  simp only [Proc.written, Options.total, h.done (.inr hpc)]

end Proc.Ok

theorem length_writeAt {content : List UInt8} {offset : ℕ} (h : offset ≤ content.length)
    (data : List UInt8) :
    (writeAt content offset data).length = max content.length (offset + data.length) := by
  simp only [writeAt, List.length_append, List.length_take, List.length_replicate,
    List.length_drop]
  omega

theorem writeAt_end (content data : List UInt8) :
    writeAt content content.length data = content ++ data := by
  simp [writeAt]

section Runs

variable {ι : Type} [DecidableEq ι] {opts : ι → Options} {s t : State ι} {p : ι}

@[simp] theorem setProc_content (s : State ι) (p : ι) (c : Proc) :
    (s.setProc p c).content = s.content := rfl

@[simp] theorem setProc_self (s : State ι) (p : ι) (c : Proc) : (s.setProc p c).procs p = c :=
  Function.update_self ..

theorem setProc_ne (s : State ι) {p q : ι} (h : q ≠ p) (c : Proc) :
    (s.setProc p c).procs q = s.procs q :=
  Function.update_of_ne h ..

theorem forall_setProc {s : State ι} {p : ι} {c : Proc} (P : ι → Proc → Prop) (hp : P p c)
    (h : ∀ q, P q (s.procs q)) (q : ι) : P q ((s.setProc p c).procs q) :=
  (Function.forall_update_iff s.procs P).mpr ⟨hp, fun q _ => h q⟩ q

/-- What one step can do. -/
theorem advance_cases {reply : Option ℕ} (h : advance opts p reply s = some t) :
    ((s.procs p).pc ≠ .exited ∧ (s.procs p).pc ≠ .failed ∧
      t = s.setProc p { s.procs p with pc := .failed }) ∨
    ((s.procs p).pc = .openFile ∧ t = s.setProc p ⟨(opts p).loop 0, 0, 0⟩) ∨
    ((s.procs p).pc = .lseek ∧
      t = s.setProc p { s.procs p with pc := .write, offset := s.content.length }) ∨
    ((s.procs p).pc = .write ∧
      ∃ cnt, 0 < cnt ∧ cnt ≤ (opts p).count (s.procs p).i ∧ t = s.write opts p cnt) ∨
    ((s.procs p).pc = .close ∧ t = s.setProc p { s.procs p with pc := .exited }) := by
  cases hpc : (s.procs p).pc <;> cases reply <;>
    simp only [advance, hpc, Option.some_inj, reduceCtorEq] at h
  case write.some cnt =>
    obtain ⟨hcnt, ht⟩ := Option.ite_none_right_eq_some.mp h
    exact .inr (.inr (.inr (.inl ⟨rfl, cnt, hcnt.1, hcnt.2, (Option.some.inj ht).symm⟩)))
  all_goals simp [← h]

variable [Fintype ι] {base : List UInt8}

/-- A sum over the processes changes by the one that moves. -/
theorem sum_setProc {content : List UInt8} {c : Proc} (f : ι → Proc → ℕ)
    (ht : t = { s with content := content }.setProc p c) :
    ∑ q, f q (t.procs q) + f p (s.procs p) = ∑ q, f q (s.procs q) + f p c := by
  have hrest : ∑ q ∈ Finset.univ.erase p, f q (t.procs q) =
      ∑ q ∈ Finset.univ.erase p, f q (s.procs q) := by
    refine Finset.sum_congr rfl fun q hq => ?_
    rw [ht, setProc_ne _ (Finset.ne_of_mem_erase hq)]
  have hself : t.procs p = c := by rw [ht, setProc_self]
  rw [← Finset.add_sum_erase _ _ (Finset.mem_univ p), hrest, hself,
    ← Finset.add_sum_erase _ (fun q => f q (s.procs q)) (Finset.mem_univ p)]
  omega

/-- The file is at least as long as any process's own bytes require and at most as long
as all of them together; an offset set by `lseek` stays behind the process's own bytes. -/
structure Inv (opts : ι → Options) (base : List UInt8) (s : State ι) : Prop where
  ok : ∀ p, (s.procs p).Ok (opts p)
  grown : base.length ≤ s.content.length
  own : ∀ p, base.length + (s.procs p).written ≤ s.content.length
  sought : ∀ p, (s.procs p).pc = .write → (opts p).append = false →
    base.length + (s.procs p).written ≤ (s.procs p).offset ∧
      (s.procs p).offset ≤ s.content.length
  total : s.content.length ≤ base.length + ∑ p, (s.procs p).written

omit [DecidableEq ι] in
theorem inv_initial (opts : ι → Options) (base : List UInt8) : Inv opts base (.initial base) where
  ok p := by
    have hpos := (opts p).bytes_pos
    have hzero : (0 : ℤ) ≤ (0 : Int32).toInt := by decide
    exact ⟨fun _ => rfl, hzero, hpos.le, by simp [State.initial], by simp [State.initial]⟩
  grown := le_rfl
  own p := by simp [State.initial, Proc.written]
  sought p hpc := by simp [State.initial] at hpc
  total := by simp [State.initial]

/-- A step of process `p` after which the file is longer by at most what it has written
and covers its own bytes. -/
theorem Inv.move (h : Inv opts base s) {content : List UInt8} {c : Proc} (hok : c.Ok (opts p))
    (hgrow : s.content.length ≤ content.length)
    (hown : base.length + c.written ≤ content.length)
    (hsought : c.pc = .write → (opts p).append = false →
      base.length + c.written ≤ c.offset ∧ c.offset ≤ content.length)
    (htotal : content.length + (s.procs p).written ≤ s.content.length + c.written) :
    Inv opts base ({ s with content := content }.setProc p c) where
  ok := forall_setProc (fun q => Proc.Ok (opts q)) hok h.ok
  grown := h.grown.trans hgrow
  own := forall_setProc (fun _ c => base.length + c.written ≤ content.length) hown fun q =>
    (h.own q).trans hgrow
  sought := by
    refine forall_setProc (fun q c => c.pc = .write → (opts q).append = false →
      base.length + c.written ≤ c.offset ∧ c.offset ≤ content.length) hsought ?_
    intro q hpc happ
    obtain ⟨hlow, hhigh⟩ := h.sought q hpc happ
    exact ⟨hlow, hhigh.trans hgrow⟩
  total := by
    have hsum := sum_setProc (t := State.setProc ⟨content, s.procs⟩ p c) (fun _ => Proc.written) rfl
    have hle := h.total
    rw [setProc_content]
    dsimp only
    omega

/-- A step that leaves the file alone. -/
theorem Inv.setProc (h : Inv opts base s) {c : Proc} (hok : c.Ok (opts p))
    (hwritten : c.written = (s.procs p).written)
    (hoffset : c.pc = .write → (opts p).append = false → c.offset = s.content.length) :
    Inv opts base (s.setProc p c) := by
  have hown := h.own p
  refine h.move hok le_rfl (by omega) (fun hpc happ => ?_) (by omega)
  rw [hoffset hpc happ]
  omega

/-- Without `O_APPEND` the loop starts with `lseek`. -/
theorem loop_ne_write {o : Options} (happ : o.append = false) (i : Int32) : o.loop i ≠ .write := by
  simp only [Options.loop, happ]
  split_ifs <;> simp_all

theorem Inv.write (h : Inv opts base s) (hpc : (s.procs p).pc = .write) {cnt : ℕ}
    (hcnt : cnt ≤ (opts p).count (s.procs p).i) : Inv opts base (s.write opts p cnt) := by
  have hok := h.ok p
  obtain ⟨hi, hle⟩ := hok.toInt_add hpc hcnt
  have hnonneg := hok.nonneg
  have hown := h.own p
  have hoff : base.length + (s.procs p).written ≤
        (if (opts p).append then s.content.length else (s.procs p).offset) ∧
      (if (opts p).append then s.content.length else (s.procs p).offset) ≤ s.content.length := by
    cases happ : (opts p).append with
    | false => simpa using h.sought p hpc happ
    | true => simpa using hown
  have hwritten := hok.written_add hpc hcnt
  have hlen := length_writeAt hoff.2 (List.replicate cnt (opts p).character)
  rw [List.length_replicate] at hlen
  refine h.move (.loop (by omega) (by omega)) ?_ ?_ ?_ ?_
  · omega
  · rw [hwritten, hlen]
    omega
  · intro hwrite happ
    exact absurd hwrite (loop_ne_write happ _)
  · rw [hwritten, hlen]
    omega

theorem Inv.step {reply : Option ℕ} (h : Inv opts base s)
    (hstep : advance opts p reply s = some t) : Inv opts base t := by
  obtain ⟨hstart, hnonneg, hle, hmore, hdone⟩ := h.ok p
  obtain ⟨-, -, rfl⟩ | ⟨hpc, rfl⟩ | ⟨hpc, rfl⟩ | ⟨hpc, cnt, -, hcnt, rfl⟩ | ⟨hpc, rfl⟩ :=
    advance_cases hstep
  · exact h.setProc ⟨by simp, hnonneg, hle, by simp, by simp⟩ rfl (by simp)
  · have hi := hstart hpc
    have hzero : (0 : ℤ) ≤ (0 : Int32).toInt := by decide
    refine h.setProc (.loop hzero (opts p).bytes_pos.le) (by simp [Proc.written, hi]) ?_
    intro hwrite happ
    exact absurd hwrite (loop_ne_write happ _)
  · exact h.setProc ⟨by simp, hnonneg, hle, fun _ => hmore (.inl hpc), by simp⟩ rfl fun _ _ => rfl
  · exact h.write hpc hcnt
  · exact h.setProc ⟨by simp, hnonneg, hle, by simp, fun _ => hdone (.inl hpc)⟩ rfl (by simp)

theorem inv_of_reachable (h : (runs opts base).Reachable s) : Inv opts base s :=
  System.invariant_of_next _ (inv_initial opts base) (fun _ _ _ hu hstep => hu.step hstep) h

/-- With `O_APPEND` a step puts as many bytes behind the file as the processes have
written more. -/
theorem Inv.step_append (h : Inv opts base s) (happ : ∀ p, (opts p).append) {reply : Option ℕ}
    (hstep : advance opts p reply s = some t) :
    ∃ data, t.content = s.content ++ data ∧
      ∑ q, (t.procs q).written = ∑ q, (s.procs q).written + data.length := by
  have hquiet : ∀ c : Proc, c.written = (s.procs p).written →
      ∑ q, ((s.setProc p c).procs q).written = ∑ q, (s.procs q).written := by
    intro c hc
    have hsum := sum_setProc (t := s.setProc p c) (fun _ => Proc.written) rfl
    omega
  obtain ⟨-, -, rfl⟩ | ⟨hpc, rfl⟩ | ⟨hpc, rfl⟩ | ⟨hpc, cnt, -, hcnt, rfl⟩ | ⟨hpc, rfl⟩ :=
    advance_cases hstep
  · exact ⟨[], by simp, hquiet _ rfl⟩
  · exact ⟨[], by simp, hquiet _ (by simp [Proc.written, (h.ok p).start hpc])⟩
  · exact ⟨[], by simp, hquiet _ rfl⟩
  · refine ⟨List.replicate cnt (opts p).character, by simp [State.write, happ, writeAt_end], ?_⟩
    have hsum := sum_setProc (t := s.write opts p cnt) (fun _ => Proc.written) rfl
    rw [(h.ok p).written_add hpc hcnt] at hsum
    rw [List.length_replicate]
    omega
  · exact ⟨[], by simp, hquiet _ rfl⟩

/-- The system calls a process still makes at most. -/
def Proc.work (o : Options) (c : Proc) : ℕ :=
  match c.pc with
  | .openFile => 2 * o.total + 3
  | .lseek => 2 * (o.total - c.written) + 2
  | .write => 2 * (o.total - c.written) + 1
  | .close => 1
  | .exited | .failed => 0

theorem work_pos (o : Options) {c : Proc} (hexited : c.pc ≠ .exited) (hfailed : c.pc ≠ .failed) :
    0 < c.work o := by
  unfold Proc.work
  split <;> first | omega | contradiction

theorem work_loop_le (o : Options) (i : Int32) (offset : ℕ) :
    Proc.work o ⟨o.loop i, i, offset⟩ ≤ 2 * (o.total - Proc.written ⟨o.loop i, i, offset⟩) + 2 := by
  simp only [Proc.work, Options.loop, Proc.written]
  split_ifs <;> simp

/-- Every system call leaves less to do, so every run ends. -/
theorem Inv.step_work (h : Inv opts base s) {reply : Option ℕ}
    (hstep : advance opts p reply s = some t) :
    ∑ q, (t.procs q).work (opts q) < ∑ q, (s.procs q).work (opts q) := by
  have hless : ∀ (content : List UInt8) (c : Proc),
      c.work (opts p) < (s.procs p).work (opts p) →
      t = { s with content := content }.setProc p c →
      ∑ q, (t.procs q).work (opts q) < ∑ q, (s.procs q).work (opts q) := by
    intro content c hc ht
    have hsum := sum_setProc (fun q => Proc.work (opts q)) ht
    omega
  obtain ⟨hexited, hfailed, ht⟩ | ⟨hpc, ht⟩ | ⟨hpc, ht⟩ | ⟨hpc, cnt, hpos, hcnt, ht⟩ | ⟨hpc, ht⟩ :=
    advance_cases hstep
  · refine hless s.content _ ?_ ht
    exact work_pos (opts p) hexited hfailed
  · refine hless s.content _ ?_ ht
    have hle := work_loop_le (opts p) 0 0
    simp only [Proc.work, hpc] at hle ⊢
    omega
  · refine hless s.content _ ?_ ht
    simp [Proc.work, hpc, Proc.written]
  · refine hless _ _ ?_ ht
    have hlt := (h.ok p).written_lt (.inr hpc)
    refine (work_loop_le (opts p) _ _).trans_lt ?_
    rw [(h.ok p).written_add hpc hcnt, Proc.work, hpc]
    dsimp only
    omega
  · refine hless s.content _ ?_ ht
    simp [Proc.work, hpc]

/-- A process that has not ended can make its next call with success. -/
theorem Inv.exists_step (h : Inv opts base s) (hfailed : ∀ p, (s.procs p).pc ≠ .failed)
    (hrunning : (s.procs p).pc ≠ .exited) :
    ∃ t, advance opts p (some 1) s = some t ∧ ∀ q, (t.procs q).pc ≠ .failed := by
  have hnext : ∀ {content : List UInt8} {c : Proc} {t : State ι},
      t = { s with content := content }.setProc p c → c.pc ≠ .failed →
      advance opts p (some 1) s = some t →
      ∃ t, advance opts p (some 1) s = some t ∧ ∀ q, (t.procs q).pc ≠ .failed := by
    rintro content c t rfl hc hstep
    exact ⟨_, hstep, forall_setProc (fun _ c => c.pc ≠ .failed) hc hfailed⟩
  have hloop : ∀ i, (opts p).loop i ≠ .failed := by
    intro i
    simp only [Options.loop]
    split_ifs <;> simp
  cases hpc : (s.procs p).pc with
  | openFile =>
      exact hnext (t := s.setProc p ⟨(opts p).loop 0, 0, 0⟩) rfl (hloop 0) (by simp only [advance, hpc])
  | lseek =>
      exact hnext (t := s.setProc p ⟨.write, (s.procs p).i, s.content.length⟩) rfl (by simp)
        (by simp only [advance, hpc])
  | write =>
      have hlt := (h.ok p).more (.inr hpc)
      have hcount := Options.count_eq (h.ok p).nonneg hlt
      have hpos := (opts p).bufferSize_pos
      have hone : 0 < 1 ∧ 1 ≤ (opts p).count (s.procs p).i := by omega
      exact hnext (t := s.write opts p 1) rfl (hloop _) (by simp only [advance, hpc, if_pos hone])
  | close =>
      exact hnext (t := s.setProc p ⟨.exited, (s.procs p).i, (s.procs p).offset⟩) rfl (by simp)
        (by simp only [advance, hpc])
  | exited => exact absurd hpc hrunning
  | failed => exact absurd hpc (hfailed p)

/-- If no call fails, all processes can finish. -/
theorem Inv.exists_finished (h : Inv opts base s) (hfailed : ∀ p, (s.procs p).pc ≠ .failed) :
    ∃ t, Relation.ReflTransGen (runs opts base).step s t ∧ t.Finished := by
  induction hwork : ∑ q, (s.procs q).work (opts q) using Nat.strong_induction_on generalizing s with
  | _ n ih =>
    by_cases hfin : s.Finished
    · exact ⟨s, .refl, hfin⟩
    obtain ⟨p, hp⟩ := not_forall.mp hfin
    obtain ⟨u, hstep, hu⟩ := h.exists_step hfailed hp
    obtain ⟨t, hrun, ht⟩ := ih _ (hwork ▸ h.step_work hstep) (h.step hstep) hu rfl
    exact ⟨t, .head ⟨(p, some 1), hstep⟩ hrun, ht⟩

end Runs

section Sizes

variable {ι : Type} [DecidableEq ι] [Fintype ι] {opts : ι → Options} {s : State ι}
  {base : List UInt8}

/-- With `O_APPEND` everywhere the file only grows at its end. -/
theorem content_prefix (happ : ∀ p, (opts p).append) (h : (runs opts base).Reachable s)
    {t : State ι} (hrun : Relation.ReflTransGen (runs opts base).step s t) :
    s.content <+: t.content := by
  induction hrun with
  | refl => exact List.prefix_refl _
  | @tail u v hrun hstep ih =>
      obtain ⟨⟨p, reply⟩, hstep⟩ := hstep
      obtain ⟨s₀, h₀, hstart⟩ := h
      have hinv := inv_of_reachable ⟨s₀, h₀, hstart.trans hrun⟩
      obtain ⟨data, hdata, -⟩ := hinv.step_append happ hstep
      rw [hdata]
      exact ih.trans (List.prefix_append _ _)

theorem length_content_append (happ : ∀ p, (opts p).append) (h : (runs opts base).Reachable s) :
    s.content.length = base.length + ∑ p, (s.procs p).written := by
  refine h.invariant (fun s => s.content.length = base.length + ∑ p, (s.procs p).written) ?_ ?_
  · rintro _ rfl
    simp [State.initial, Proc.written]
  · rintro u v hu hlen ⟨⟨p, reply⟩, hstep⟩
    obtain ⟨data, hdata, hsum⟩ := (inv_of_reachable hu).step_append happ hstep
    rw [hdata, List.length_append, hsum, hlen, add_assoc]

/-- The sizes of the file. With `O_APPEND` everywhere the initial content and all that
was written stays, and the final size is exact. In every case it lies between what the
largest request and what all of them together give. -/
theorem final_sizes (h : (runs opts base).Reachable s) :
    ((∀ p, (opts p).append) →
      base <+: s.content ∧
      (∀ t, Relation.ReflTransGen (runs opts base).step s t → s.content <+: t.content) ∧
      s.content.length = base.length + ∑ p, (s.procs p).written ∧
      (s.Finished → s.content.length = base.length + ∑ p, (opts p).total)) ∧
    (s.Finished →
      base.length + Finset.univ.sup (fun p => (opts p).total) ≤ s.content.length ∧
        s.content.length ≤ base.length + ∑ p, (opts p).total) ∧
    ((∀ p, (s.procs p).pc ≠ .failed) →
      ∃ t, Relation.ReflTransGen (runs opts base).step s t ∧ t.Finished) := by
  have hinv := inv_of_reachable h
  have hsum : s.Finished → ∑ p, (s.procs p).written = ∑ p, (opts p).total := fun hfin =>
    Finset.sum_congr rfl fun p _ => (hinv.ok p).written_exited (hfin p)
  refine ⟨fun happ => ⟨?_, fun t => content_prefix happ h, length_content_append happ h, ?_⟩,
    fun hfin => ⟨?_, ?_⟩, hinv.exists_finished⟩
  · obtain ⟨s₀, rfl, hrun⟩ := h
    exact content_prefix happ (.start rfl) hrun
  · intro hfin
    rw [length_content_append happ h, hsum hfin]
  · have hsup : Finset.univ.sup (fun p => (opts p).total) ≤ s.content.length - base.length := by
      refine Finset.sup_le fun p _ => ?_
      have hown := hinv.own p
      rw [(hinv.ok p).written_exited (hfin p)] at hown
      omega
    have hgrown := hinv.grown
    omega
  · rw [← hsum hfin]
    exact hinv.total

/-- Two processes that write one byte each, on an empty file. -/
abbrev oneByte (append : Bool) : Bool → Options := fun _ =>
  { append := append
    bytes := 1
    bufferSize := 1
    bytes_pos := show 0 < (1 : Int64).toInt by decide
    bytes_le := show (1 : Int64).toInt < 2 ^ 31 by decide
    bufferSize_pos := show 0 < (1 : Int32).toInt by decide }

/-- With `O_APPEND` the file has both bytes; without it, when both call `lseek` before
either writes, one byte is lost. -/
theorem final_sizes_race :
    (∃ s, (runs (oneByte true) []).Reachable s ∧ s.Finished ∧
      s.content.length = ∑ p, (oneByte true p).total) ∧
    ∃ s, (runs (oneByte false) []).Reachable s ∧ s.Finished ∧ s.content = [97] ∧
      Finset.univ.sup (fun p => (oneByte false p).total) ≤ s.content.length ∧
        s.content.length ≤ ∑ p, (oneByte false p).total := by
  constructor
  · have hreach := System.reachable_of_schedule
      (System.Reachable.start (M := runs (oneByte true) []) rfl)
      [(false, some 0), (true, some 0), (false, some 1), (true, some 1), (false, some 0),
        (true, some 0)] rfl
    have hsize := ((final_sizes hreach).1 fun _ => rfl).2.2.2 (Bool.forall_bool.mpr ⟨rfl, rfl⟩)
    exact ⟨_, hreach, Bool.forall_bool.mpr ⟨rfl, rfl⟩, by simpa using hsize⟩
  · have hreach := System.reachable_of_schedule
      (System.Reachable.start (M := runs (oneByte false) []) rfl)
      [(false, some 0), (true, some 0), (false, some 0), (true, some 0), (false, some 1),
        (true, some 1), (false, some 0), (true, some 0)] rfl
    have hsize := (final_sizes hreach).2.1 (Bool.forall_bool.mpr ⟨rfl, rfl⟩)
    exact ⟨_, hreach, Bool.forall_bool.mpr ⟨rfl, rfl⟩, rfl, by simpa using hsize⟩

end Sizes

end TlpiExercises.AtomicAppend
