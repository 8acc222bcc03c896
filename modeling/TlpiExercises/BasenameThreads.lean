import TlpiExercises.DirnameBasename
import TlpiExercises.MemoryPrograms
import TlpiExercises.Transition

/-!
# Threads that call `t_safe_basename` and `t_safe_dirname`

The buffers of all threads lie in one memory, at the addresses that `malloc` returns. The calls of
the threads interleave with every single access to a byte, and nothing checks the addresses. Each
call returns what it returns alone, because each thread has a buffer of its own for each of the two
functions.
-/
namespace TlpiExercises.DirnameBasename
open CText MemoryPrograms

/-- The accesses of the first loop of `t_safe_basename`; its value is `sz`. -/
def collectProg (path : List UInt8) : ℕ → ℕ → Prog UInt8 ℕ
  | 0, sz => .ret sz
  | i + 1, sz =>
      let c := path.getD i 0
      if c = slash then .ret sz else .store sz c (collectProg path i (sz + 1))

/-- `buf[i] ^= buf[j] ^= buf[i] ^= buf[j]`, from right to left. -/
def exchangeProg (i j : ℕ) (next : Prog UInt8 Unit) : Prog UInt8 Unit :=
  .load j fun v => .load i fun x => .store i (x ^^^ v) <|
    .load j fun y => .store j (y ^^^ (x ^^^ v)) <|
      .load i fun z => .store i (z ^^^ (y ^^^ (x ^^^ v))) next

def reverseProg (sz : ℕ) : ℕ → ℕ → Prog UInt8 Unit
  | 0, _ => .ret ()
  | fuel + 1, i =>
      if i < sz - i then exchangeProg i (sz - i - 1) (reverseProg sz fuel (i + 1)) else .ret ()

def basenameProg (path : List UInt8) : Prog UInt8 Unit :=
  (collectProg path (cString path).length 0).bind fun sz =>
    .store sz 0 (reverseProg sz (sz + 1) 0)

/-- `strcpy`, from position `i` on. -/
def strcpyProg : List UInt8 → ℕ → Prog UInt8 Unit → Prog UInt8 Unit
  | [], i, next => .store i 0 next
  | c :: text, i, next => .store i c (strcpyProg text (i + 1) next)

/-- `strlen`, from position `i` on and for at most so many bytes. -/
def strlenProg : ℕ → ℕ → Prog UInt8 ℕ
  | 0, i => .ret i
  | fuel + 1, i => .load i fun c => if c = 0 then .ret i else strlenProg fuel (i + 1)

def cutProg : ℕ → Prog UInt8 Unit
  | 0 => .ret ()
  | i + 1 => .load i fun c => if c = slash then .store i 0 (.ret ()) else cutProg i

def dirnameProg (path : List UInt8) : Prog UInt8 Unit :=
  strcpyProg (cString path) 0 ((strlenProg bufSize 0).bind cutProg)

section Alone

variable {buf buf' : Buffer}

@[simp] theorem Buffer.bytes_set (buf : Buffer) (i : ℕ) (x : UInt8) :
    (buf.set i x).bytes = buf.bytes.set i x := rfl

theorem run_collectProg {path : List UInt8} {i sz sz' : ℕ}
    (h : collect path i sz buf = some (sz', buf')) :
    (collectProg path i sz).run buf.bytes = some (sz', buf'.bytes) := by
  induction i generalizing sz buf with
  | zero =>
      obtain ⟨rfl, rfl⟩ : sz = sz' ∧ buf = buf' := by simpa [collect] using h
      rfl
  | succ i ih =>
      rw [collect, Option.bind_eq_bind, Option.bind_eq_some_iff] at h
      obtain ⟨c, hc, h⟩ := h
      have hget : path.getD i 0 = c := by simp [List.getD, hc]
      simp only [collectProg, hget]
      split_ifs at h ⊢ with hslash
      · obtain ⟨rfl, rfl⟩ : sz = sz' ∧ buf = buf' := by simpa using h
        rfl
      · rw [Option.bind_eq_bind, Option.bind_eq_some_iff] at h
        obtain ⟨buf₁, hstore, h⟩ := h
        obtain ⟨hsz, hset⟩ := Option.ite_none_right_eq_some.mp hstore
        obtain rfl := Option.some.inj hset
        rw [Prog.run_store (by rwa [buf.size])]
        exact ih h

theorem run_exchangeProg {i j : ℕ} (h : buf.exchange i j = some buf') (next : Prog UInt8 Unit) :
    (exchangeProg i j next).run buf.bytes = next.run buf'.bytes := by
  simp only [Buffer.exchange, Buffer.xorAssign, Option.bind_eq_bind, Option.bind_eq_some_iff,
    Option.pure_def, Option.some.injEq, Prod.exists, Prod.mk.injEq] at h
  obtain ⟨v, hv, buf₁, v₁, ⟨x, hx, rfl, rfl⟩, buf₂, v₂, ⟨y, hy, rfl, rfl⟩, buf₃, v₃,
    ⟨z, hz, rfl, rfl⟩, rfl⟩ := h
  simp only [Buffer.bytes_set] at hy hz ⊢
  have hi := (List.getElem?_eq_some_iff.mp hx).1
  have hj := (List.getElem?_eq_some_iff.mp hv).1
  rw [exchangeProg, Prog.run_load hv, Prog.run_load hx, Prog.run_store hi, Prog.run_load hy,
    Prog.run_store (by simpa using hj), Prog.run_load hz, Prog.run_store (by simpa using hi)]

theorem run_reverseProg {sz fuel i : ℕ} (h : reverseLoop sz fuel i buf = some buf') :
    (reverseProg sz fuel i).run buf.bytes = some ((), buf'.bytes) := by
  induction fuel generalizing i buf with
  | zero => cases h
  | succ fuel ih =>
      rw [reverseLoop] at h
      unfold reverseProg
      split_ifs at h ⊢ with hi
      · rw [Option.bind_eq_bind, Option.bind_eq_some_iff] at h
        obtain ⟨buf₁, hexchange, h⟩ := h
        rw [run_exchangeProg hexchange]
        exact ih h
      · obtain rfl := Option.some.inj h
        rfl

theorem run_basenameProg {path : List UInt8} {malloc : Buffer}
    (h : tSafeBasename (some buf) malloc path = some buf') :
    (basenameProg path).run buf.bytes = some ((), buf'.bytes) := by
  rw [tSafeBasename, Option.bind_eq_bind, Option.bind_eq_some_iff] at h
  obtain ⟨⟨sz, buf₁⟩, hcollect, h⟩ := h
  rw [Option.bind_eq_bind, Option.bind_eq_some_iff] at h
  obtain ⟨buf₂, hstore, h⟩ := h
  obtain ⟨hsz, hset⟩ := Option.ite_none_right_eq_some.mp hstore
  obtain rfl := Option.some.inj hset
  rw [basenameProg, Prog.run_bind (run_collectProg (Option.getD_some ▸ hcollect)), Prog.run_store (by rwa [buf₁.size])]
  exact run_reverseProg h

theorem run_strcpyProg (text front : List UInt8) {rest : List UInt8}
    (h : text.length < rest.length) (next : Prog UInt8 Unit) :
    (strcpyProg text front.length next).run (front ++ rest) =
      next.run (front ++ (text ++ 0 :: rest.drop (text.length + 1))) := by
  induction text generalizing front rest with
  | nil =>
      obtain ⟨x, rest, rfl⟩ := List.exists_cons_of_length_pos h
      rw [strcpyProg, Prog.run_store (by simp)]
      simp
  | cons c text ih =>
      obtain ⟨x, rest, rfl⟩ := List.exists_cons_of_length_pos (Nat.zero_lt_of_lt h)
      rw [strcpyProg, Prog.run_store (by simp)]
      have hfront : (front ++ x :: rest).set front.length c = (front ++ [c]) ++ rest := by simp
      have hlen : front.length + 1 = (front ++ [c]).length := by simp
      rw [hfront, hlen, ih _ (by simpa using h)]
      simp

theorem run_strlenProg {text : List UInt8} (h : 0 ∉ text) (rest : List UInt8) {fuel i : ℕ}
    (hi : i ≤ text.length) (hfuel : text.length < i + fuel) :
    (strlenProg fuel i).run (text ++ 0 :: rest) = some (text.length, text ++ 0 :: rest) := by
  induction fuel generalizing i with
  | zero => omega
  | succ fuel ih =>
      unfold strlenProg
      rcases hi.eq_or_lt with rfl | hlt
      · rw [Prog.run_load (x := 0) (by simp), if_pos rfl]
        rfl
      · have hget : (text ++ 0 :: rest)[i]? = some text[i] := by
          rw [List.getElem?_append_left hlt, List.getElem?_eq_getElem hlt]
        have hne : text[i] ≠ 0 := fun hzero => h (hzero ▸ List.getElem_mem hlt)
        rw [Prog.run_load hget, if_neg hne]
        exact ih hlt (by omega)

theorem run_cutProg {i : ℕ} (h : cutLoop i buf = some buf') :
    (cutProg i).run buf.bytes = some ((), buf'.bytes) := by
  induction i with
  | zero =>
      obtain rfl := Option.some.inj h
      rfl
  | succ i ih =>
      rw [cutLoop, Option.bind_eq_bind, Option.bind_eq_some_iff] at h
      obtain ⟨c, hc, h⟩ := h
      rw [cutProg, Prog.run_load hc]
      split_ifs at h ⊢ with hslash
      · obtain ⟨hi, hset⟩ := Option.ite_none_right_eq_some.mp h
        obtain rfl := Option.some.inj hset
        rw [Prog.run_store (by rwa [buf.size])]
        rfl
      · exact ih h

theorem run_dirnameProg {path : List UInt8} {malloc : Buffer}
    (h : tSafeDirname (some buf) malloc path = some buf') :
    (dirnameProg path).run buf.bytes = some ((), buf'.bytes) := by
  obtain ⟨buf₁, hcopy, hcut⟩ := Option.bind_eq_some_iff.mp h
  obtain ⟨hlen, hbuf₁⟩ := Option.dite_none_right_eq_some.mp hcopy
  obtain rfl := Option.some.inj hbuf₁
  have hzero := zero_notMem_cString path
  let rest := buf.bytes.drop ((cString path).length + 1)
  have hstring : cString (cString path ++ 0 :: rest) = cString path :=
    (cString_append_zero _ _).trans (cString_eq_self hzero)
  have hstrcpy := run_strcpyProg (cString path) [] (by rwa [buf.size])
    ((strlenProg bufSize 0).bind cutProg)
  have hstrlen := run_strlenProg hzero rest (Nat.zero_le _) (show _ < 0 + bufSize by omega)
  have hcut' := run_cutProg hcut
  simp only [Option.getD_some] at hcut'
  rw [hstring] at hcut'
  exact hstrcpy.trans ((Prog.run_bind hstrlen).trans hcut')

end Alone

/-- The keys of the thread-specific data, `basename_key` and `dirname_key`. -/
inductive Key where
  | basename | dirname
  deriving DecidableEq

namespace Key

instance : Fintype Key := ⟨{basename, dirname}, by rintro (_ | _) <;> decide⟩

/-- The function that uses the key, in a program with one thread. -/
def alone : Key → Option Buffer → Buffer → List UInt8 → Option Buffer
  | basename => tSafeBasename
  | dirname => tSafeDirname

def prog : Key → List UInt8 → Prog UInt8 Unit
  | basename => basenameProg
  | dirname => dirnameProg

/-- The function returns the text in a program with one thread, whatever the buffer holds. -/
def Answer (key : Key) (path text : List UInt8) : Prop :=
  ∀ specific malloc, ∃ buf, key.alone specific malloc path = some buf ∧ cString buf.bytes = text

theorem exists_answer (key : Key) {path : List UInt8} (hlen : (cString path).length < bufSize) :
    ∃ text, key.Answer path text := by
  cases key with
  | basename => exact ⟨_, fun specific malloc => tSafeBasename_eq specific malloc hlen rfl⟩
  | dirname =>
      by_cases hslash : slash ∈ cString path
      · obtain ⟨name, dir, hpath, hname⟩ := List.eq_append_cons_of_mem
          (List.mem_reverse.mpr hslash)
        have hpath' : cString path = dir.reverse ++ slash :: name.reverse := by
          rw [← List.reverse_reverse (cString path), hpath]
          simp
        exact ⟨_, fun specific malloc =>
          tSafeDirname_append specific malloc hlen hpath' (by simpa using hname)⟩
      · exact ⟨_, fun specific malloc => tSafeDirname_of_notMem specific malloc hlen hslash⟩

theorem run_prog {key : Key} {path : List UInt8} {buf buf' : Buffer} {malloc : Buffer}
    (h : key.alone (some buf) malloc path = some buf') :
    (key.prog path).run buf.bytes = some ((), buf'.bytes) := by
  cases key with
  | basename => exact run_basenameProg h
  | dirname => exact run_dirnameProg h

theorem exists_run (key : Key) {path : List UInt8} (hlen : (cString path).length < bufSize)
    {bytes : List UInt8} (hsize : bytes.length = bufSize) :
    ∃ out, (key.prog path).run bytes = some ((), out) ∧ key.Answer path (cString out) := by
  obtain ⟨text, htext⟩ := key.exists_answer hlen
  obtain ⟨out, hout, hstring⟩ := htext (some ⟨bytes, hsize⟩) ⟨bytes, hsize⟩
  exact ⟨out.bytes, run_prog hout, hstring ▸ htext⟩

end Key

/-- A call that has not returned, with the address of its buffer and what is left to do. -/
structure Call where
  key : Key
  path : List UInt8
  buf : ℕ
  rest : Prog UInt8 Unit

/-- The memory, the thread-specific data and the calls of all threads. For each of the two
functions, `returned` has the path of the last call of the thread that has returned. -/
structure Threads (τ : Type) where
  heap : ℕ → UInt8
  specific : τ → Key → Option ℕ
  running : τ → Option Call
  returned : τ → Key → Option (List UInt8)

/-- A call begins, with the block that `malloc` returns if the thread has no buffer; it makes one
access; it returns; the thread terminates, and the destructors free its buffers. -/
inductive Label (τ : Type) where
  | call (t : τ) (key : Key) (path : List UInt8) (block : ℕ)
  | access (t : τ)
  | ret (t : τ)
  | exit (t : τ)

namespace Threads

variable {τ : Type}

/-- The two blocks have no byte in common. -/
def Apart (a b : ℕ) : Prop := a + bufSize ≤ b ∨ b + bufSize ≤ a

instance (a b : ℕ) : Decidable (Apart a b) := inferInstanceAs (Decidable (_ ∨ _))

/-- The path fits into the buffers, and `malloc` returns a block that is not in use. -/
def ok : Label τ → Threads τ → Prop
  | .call _ _ path block, s =>
      (cString path).length < bufSize ∧ ∀ t key, ∀ b ∈ s.specific t key, Apart block b
  | _, _ => True

instance [Fintype τ] : ∀ (l : Label τ) (s : Threads τ), Decidable (ok l s)
  | .call .., _ => inferInstanceAs (Decidable (_ ∧ _))
  | .access _, _ | .ret _, _ | .exit _, _ => inferInstanceAs (Decidable True)

variable [DecidableEq τ]

def next : Label τ → Threads τ → Option (Threads τ)
  | .call t key path block, s =>
      match s.running t with
      | some _ => none
      | none =>
          let buf := (s.specific t key).getD block
          some { s with
            specific := Function.update s.specific t
              (Function.update (s.specific t) key (some buf))
            running := Function.update s.running t (some ⟨key, path, buf, key.prog path⟩) }
  | .access t, s => do
      let c ← s.running t
      let (rest, heap) ← c.rest.access c.buf s.heap
      return { s with heap, running := Function.update s.running t (some { c with rest }) }
  | .ret t, s =>
      match s.running t with
      | some ⟨key, path, _, .ret _⟩ =>
          some { s with
            running := Function.update s.running t none
            returned := Function.update s.returned t
              (Function.update (s.returned t) key (some path)) }
      | _ => none
  | .exit t, s =>
      match s.running t with
      | some _ => none
      | none =>
          some { s with
            specific := Function.update s.specific t fun _ => none
            returned := Function.update s.returned t fun _ => none }

/-- No thread has a buffer. -/
def start (heap : ℕ → UInt8) : Threads τ := ⟨heap, fun _ _ => none, fun _ => none, fun _ _ => none⟩

def system (heap : ℕ → UInt8) : System (Threads τ) :=
  System.ofNextWhen (· = start heap) next ok

/-- What holds in every state: the buffers are apart, each call is on the way to the answer of the
function alone, and the buffers of the calls that have returned hold such answers. -/
structure Inv (s : Threads τ) : Prop where
  apart : ∀ t key t' key' b b', s.specific t key = some b → s.specific t' key' = some b' →
    (t, key) ≠ (t', key') → Apart b b'
  running : ∀ t c, s.running t = some c → s.specific t c.key = some c.buf ∧
    ∃ out, c.rest.run (region s.heap c.buf bufSize) = some ((), out) ∧
      c.key.Answer c.path (cString out)
  returned : ∀ t key path, s.returned t key = some path → (∀ c ∈ s.running t, c.key ≠ key) →
    ∃ b, s.specific t key = some b ∧ key.Answer path (cString (region s.heap b bufSize))

section Steps

variable {s s' : Threads τ} {t : τ}

theorem region_of_apart {heap heap' : ℕ → UInt8} {a b : ℕ} (h : Apart a b)
    (hframe : ∀ x, ¬ (a ≤ x ∧ x < a + bufSize) → heap' x = heap x) :
    region heap' b bufSize = region heap b bufSize := by
  apply region_congr
  intro x hb hx
  refine hframe x ?_
  rintro ⟨ha, hxa⟩
  rcases h with h | h <;> omega

/-- The thread-specific data when a call has its buffer. -/
theorem specific_update {f : τ → Key → Option ℕ} {key : Key} {buf b : ℕ} {t' : τ} {key' : Key}
    (h : Function.update f t (Function.update (f t) key (some buf)) t' key' = some b) :
    (t', key') = (t, key) ∧ b = buf ∨ (t', key') ≠ (t, key) ∧ f t' key' = some b := by
  by_cases ht : t' = t
  · subst ht
    rw [Function.update_self] at h
    by_cases hkey : key' = key
    · subst hkey
      rw [Function.update_self, Option.some.injEq] at h
      exact .inl ⟨rfl, h.symm⟩
    · rw [Function.update_of_ne hkey] at h
      exact .inr ⟨fun heq => hkey (Prod.mk.inj heq).2, h⟩
  · rw [Function.update_of_ne ht] at h
    exact .inr ⟨fun heq => ht (Prod.mk.inj heq).1, h⟩

theorem Inv.call (hs : s.Inv) {key : Key} {path : List UInt8} {block : ℕ}
    (hok : ok (.call t key path block) s) (hstep : next (.call t key path block) s = some s') :
    s'.Inv := by
  obtain ⟨hlen, hfresh⟩ := hok
  cases hidle : s.running t with
  | some c => simp [next, hidle] at hstep
  | none =>
  simp only [next, hidle, Option.some.injEq] at hstep
  obtain rfl := hstep
  -- the buffer of the call is apart from the buffers of the other calls and threads
  have hbuf : ∀ t' key' b, (t', key') ≠ (t, key) → s.specific t' key' = some b →
      Apart ((s.specific t key).getD block) b := by
    intro t' key' b hne hb
    cases hspecific : s.specific t key with
    | some a => exact hs.apart t key t' key' a b hspecific hb hne.symm
    | none => exact hfresh t' key' b hb
  generalize (s.specific t key).getD block = buf at hbuf
  refine ⟨?_, ?_, ?_⟩
  · intro t₁ key₁ t₂ key₂ b₁ b₂ h₁ h₂ hne
    rcases specific_update h₁ with ⟨heq₁, rfl⟩ | ⟨hne₁, hb₁⟩ <;>
      rcases specific_update h₂ with ⟨heq₂, rfl⟩ | ⟨hne₂, hb₂⟩
    · exact absurd (heq₁.trans heq₂.symm) hne
    · exact hbuf t₂ key₂ b₂ hne₂ hb₂
    · exact (hbuf t₁ key₁ b₁ hne₁ hb₁).symm
    · exact hs.apart t₁ key₁ t₂ key₂ b₁ b₂ hb₁ hb₂ hne
  · intro t' c hc
    by_cases ht : t' = t
    · subst ht
      obtain rfl : _ = c := by simpa using hc
      exact ⟨by simp, Key.exists_run key hlen (length_region ..)⟩
    · simp only [Function.update_of_ne ht] at hc ⊢
      exact hs.running t' c hc
  · intro t' key' path' hreturned hdone
    by_cases ht : t' = t
    · subst ht
      have hkey : key ≠ key' := hdone ⟨key, path, buf, key.prog path⟩ (by simp)
      obtain ⟨b, hb, hanswer⟩ := hs.returned t' key' path' hreturned (by simp [hidle])
      exact ⟨b, by simpa [Function.update_of_ne hkey.symm] using hb, hanswer⟩
    · simp only [Function.update_of_ne ht] at hdone ⊢
      exact hs.returned t' key' path' hreturned hdone

theorem Inv.access (hs : s.Inv) (hstep : next (.access t) s = some s') : s'.Inv := by
  obtain ⟨c, hc, hstep⟩ := Option.bind_eq_some_iff.mp hstep
  obtain ⟨⟨rest, heap⟩, haccess, hstep⟩ := Option.bind_eq_some_iff.mp hstep
  obtain rfl := Option.some.inj hstep
  obtain ⟨hspecific, out, hrun, hanswer⟩ := hs.running t c hc
  obtain ⟨hrest, hframe⟩ := Prog.access_spec hrun haccess
  -- the other buffers are as before
  have hregion : ∀ t' key b, s.specific t' key = some b → (t, c.key) ≠ (t', key) →
      region heap b bufSize = region s.heap b bufSize :=
    fun t' key b hb hne => region_of_apart (hs.apart _ _ _ _ _ _ hspecific hb hne) hframe
  refine ⟨hs.apart, ?_, ?_⟩
  · intro t' c' hc'
    by_cases ht : t' = t
    · subst ht
      obtain rfl : _ = c' := by simpa using hc'
      exact ⟨hspecific, out, hrest, hanswer⟩
    · simp only [Function.update_of_ne ht] at hc'
      obtain ⟨hspecific', hrun'⟩ := hs.running t' c' hc'
      refine ⟨hspecific', ?_⟩
      rwa [hregion t' c'.key c'.buf hspecific' fun heq => ht (Prod.mk.inj heq).1.symm]
  · intro t' key path hreturned hdone
    have hne : (t, c.key) ≠ (t', key) := by
      rintro heq
      obtain ⟨rfl, hkey⟩ := Prod.mk.inj heq
      exact hdone { c with rest } (by simp) hkey
    have hdone' : ∀ c' ∈ s.running t', c'.key ≠ key := by
      intro c' hc'
      by_cases ht : t' = t
      · subst ht
        obtain rfl : c = c' := Option.some.inj (hc.symm.trans hc')
        exact hdone { c with rest } (by simp)
      · exact hdone c' (by simpa [Function.update_of_ne ht] using hc')
    obtain ⟨b, hb, hanswer'⟩ := hs.returned t' key path hreturned hdone'
    exact ⟨b, hb, by rwa [hregion t' key b hb hne]⟩

theorem Inv.ret (hs : s.Inv) (hstep : next (.ret t) s = some s') : s'.Inv := by
  obtain ⟨key, path, buf, hc, rfl⟩ : ∃ key path buf, s.running t = some ⟨key, path, buf, .ret ()⟩ ∧
      s' = { s with
        running := Function.update s.running t none
        returned := Function.update s.returned t
          (Function.update (s.returned t) key (some path)) } := by
    simp only [next] at hstep
    split at hstep
    · exact ⟨_, _, _, ‹_›, (Option.some.inj hstep).symm⟩
    · cases hstep
  obtain ⟨hspecific, out, hrun, hanswer⟩ := hs.running t _ hc
  obtain rfl : region s.heap buf bufSize = out := (Prod.mk.inj (Option.some.inj hrun)).2
  refine ⟨hs.apart, ?_, ?_⟩
  · intro t' c' hc'
    by_cases ht : t' = t
    · subst ht
      simp at hc'
    · exact hs.running t' c' (by simpa [Function.update_of_ne ht] using hc')
  · intro t' key' path' hreturned hdone
    by_cases ht : t' = t
    · subst ht
      simp only [Function.update_self] at hreturned
      by_cases hkey : key' = key
      · subst hkey
        obtain rfl : path = path' := by simpa using hreturned
        exact ⟨buf, hspecific, hanswer⟩
      · rw [Function.update_of_ne hkey] at hreturned
        refine hs.returned t' key' path' hreturned ?_
        intro c' hc'
        obtain rfl := Option.some.inj (hc.symm.trans hc')
        exact Ne.symm hkey
    · simp only [Function.update_of_ne ht] at hreturned hdone
      exact hs.returned t' key' path' hreturned hdone

theorem Inv.exit (hs : s.Inv) (hstep : next (.exit t) s = some s') : s'.Inv := by
  cases hidle : s.running t with
  | some c => simp [next, hidle] at hstep
  | none =>
  simp only [next, hidle, Option.some.injEq] at hstep
  obtain rfl := hstep
  have hkept : ∀ t' key b, Function.update s.specific t (fun _ => none) t' key = some b →
      s.specific t' key = some b := by
    intro t' key b hb
    by_cases ht : t' = t
    · subst ht
      simp at hb
    · simpa [Function.update_of_ne ht] using hb
  refine ⟨?_, ?_, ?_⟩
  · intro t₁ key₁ t₂ key₂ b₁ b₂ h₁ h₂
    exact hs.apart t₁ key₁ t₂ key₂ b₁ b₂ (hkept _ _ _ h₁) (hkept _ _ _ h₂)
  · intro t' c hc
    have ht : t' ≠ t := by
      rintro rfl
      simp [hidle] at hc
    simpa only [Function.update_of_ne ht] using hs.running t' c hc
  · intro t' key path hreturned hdone
    have ht : t' ≠ t := by
      rintro rfl
      simp at hreturned
    simp only [Function.update_of_ne ht] at hreturned ⊢
    exact hs.returned t' key path hreturned hdone

end Steps

omit [DecidableEq τ] in
theorem inv_start (heap : ℕ → UInt8) : (start heap : Threads τ).Inv :=
  ⟨fun _ _ _ _ _ _ h => (nomatch h), fun _ _ h => (nomatch h), fun _ _ _ h => (nomatch h)⟩

theorem inv_of_reachable {heap : ℕ → UInt8} {s : Threads τ} (h : (system heap).Reachable s) :
    s.Inv := by
  refine System.invariant_of_nextWhen Inv (inv_start heap) ?_ h
  intro l s s' hs hok hstep
  cases l with
  | call t key path block => exact hs.call hok hstep
  | access t => exact hs.access hstep
  | ret t => exact hs.ret hstep
  | exit t => exact hs.exit hstep

/-- Both functions are safe to call from many threads: in every interleaving, the buffer of a
thread holds the string that its last call returns in a program with one thread, until the thread
calls the same function again or terminates. -/
theorem returned_string {heap : ℕ → UInt8} {s : Threads τ} (h : (system heap).Reachable s) {t : τ}
    {key : Key} {path : List UInt8} (hreturned : s.returned t key = some path)
    (hdone : ∀ c ∈ s.running t, c.key ≠ key) :
    ∃ b, s.specific t key = some b ∧ key.Answer path (cString (region s.heap b bufSize)) :=
  (inv_of_reachable h).returned t key path hreturned hdone

/-- Two threads call `t_safe_dirname` with `a` and `b`, access by access in turn. -/
theorem returned_string_two :
    ∃ s : Threads Bool, (system fun _ => 0).Reachable s ∧
      s.returned false .dirname = some [97, 0] ∧ ∃ b, s.specific false .dirname = some b ∧
        Key.dirname.Answer [97, 0] (cString (region s.heap b bufSize)) := by
  let steps : List (Label Bool) :=
    [.call false .dirname [97, 0] 4096, .call true .dirname [98, 0] 8192] ++
      (List.replicate 5 [.access false, .access true]).flatten ++ [.ret false]
  obtain ⟨s, hrun, hreturned, hidle⟩ : ∃ s,
      steps.foldlM (fun u l => if ok l u then next l u else none) (start fun _ => 0) = some s ∧
        s.returned false .dirname = some [97, 0] ∧ s.running false = none := ⟨_, rfl, rfl, rfl⟩
  have hstart : (system fun _ => 0).Reachable (start fun _ => 0 : Threads Bool) := .start rfl
  have hs := System.reachable_of_scheduleWhen hstart steps hrun
  exact ⟨s, hs, hreturned, returned_string hs hreturned (by simp [hidle])⟩

end Threads

end TlpiExercises.DirnameBasename
