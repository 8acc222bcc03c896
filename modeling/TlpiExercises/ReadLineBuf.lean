import TlpiExercises.ReadLine

/-!
# The buffered line reader

`readLineBuf` fetches up to `READLINE_MAX_BUF` bytes at a time and keeps the
unread ones between calls in the window `[next, len)` of its buffer. The kernel
decides how the stream is split into reads; a list of replies is one such way,
and its events are the stream itself, as single-byte reads would see it.
-/
namespace TlpiExercises.ReadLine

/-- `READLINE_MAX_BUF`. -/
abbrev readlineMaxBuf : ℕ := 3

/-- What one `read` of at most `max` bytes that is not at end of file gives. -/
inductive Reply (max : ℕ) where
  | data (bytes : List UInt8) (nonempty : bytes ≠ []) (fits : bytes.length ≤ max)
  | error (e : Errno)

/-- A reply as single-byte reads would see it. -/
def Reply.events {max : ℕ} : Reply max → List Event
  | .data bytes _ _ => ofBytes bytes
  | .error e => [.error e]

/-- The stream a list of replies splits. -/
def events {max : ℕ} (rs : List (Reply max)) : List Event := rs.flatMap Reply.events

theorem events_cons {max : ℕ} (r : Reply max) (rs : List (Reply max)) :
    events (r :: rs) = r.events ++ events rs := rfl

/-- `struct readline_buf`, without the descriptor number. -/
structure ReadlineBuf where
  buf : Vector UInt8 readlineMaxBuf
  next : ℕ
  len : ℤ
  len_le : len ≤ readlineMaxBuf

/-- `readLineBufInit`: the bytes of the buffer stay as they are. -/
def readLineBufInit (rlbuf : ReadlineBuf) : ReadlineBuf :=
  { rlbuf with next := 0, len := 0, len_le := by simp }

namespace ReadlineBuf

/-- The unread bytes `buf[next], …, buf[len - 1]`. -/
def window (rlbuf : ReadlineBuf) : List UInt8 :=
  (rlbuf.buf.toList.take rlbuf.len.toNat).drop rlbuf.next

/-- `read` stores its bytes at the start of the buffer. -/
def fill (rlbuf : ReadlineBuf) (bytes : List UInt8) (h : bytes.length ≤ readlineMaxBuf) :
    ReadlineBuf where
  buf := Vector.ofFn fun i => bytes.getD i rlbuf.buf[i]
  next := 0
  len := bytes.length
  len_le := by exact_mod_cast h

/-- The state after a `read` that returned `len ≤ 0`. -/
def drained (rlbuf : ReadlineBuf) (len : ℤ) (h : len ≤ 0) : ReadlineBuf :=
  { rlbuf with next := 0, len := len, len_le := h.trans (by simp) }

end ReadlineBuf

/-- The inner loop over the window, from index `i`: the bytes stored, and the new
`next` if a newline was met. -/
def scanWindow (n : ℕ) : List UInt8 → ℕ → List UInt8 → List UInt8 × Option ℕ
  | [], _, text => (text, none)
  | ch :: w, i, text =>
      if ch = newline then (storeByte n text ch, some (i + 1))
      else scanWindow n w (i + 1) (storeByte n text ch)

/-- The outer loop: scan the window, then refill it. -/
def readLineBufLoop (n : ℕ) :
    List (Reply readlineMaxBuf) → ReadlineBuf → List UInt8 →
      LineResult × ReadlineBuf × List (Reply readlineMaxBuf)
  | rs, rlbuf, text =>
      match scanWindow n rlbuf.window rlbuf.next text with
      | (text, some next) => (.finished text, { rlbuf with next := next }, rs)
      | (text, none) =>
          match rs with
          | [] => (.finished text, rlbuf.drained 0 le_rfl, [])
          | .error e :: rs => (.failed e text, rlbuf.drained (-1) (by decide), rs)
          | .data bytes _ h :: rs => readLineBufLoop n rs (rlbuf.fill bytes h) text
termination_by structural rs => rs

def readLineBuf (n : ℕ) (rlbuf : ReadlineBuf) (rs : List (Reply readlineMaxBuf)) :
    LineResult × ReadlineBuf × List (Reply readlineMaxBuf) :=
  if n = 0 then (.failed .EINVAL [], rlbuf, rs) else readLineBufLoop n rs rlbuf []

/-- Successive calls on one descriptor, with these buffer sizes. -/
def readLineBufCalls : List ℕ → ReadlineBuf → List (Reply readlineMaxBuf) → List LineResult
  | [], _, _ => []
  | n :: ns, rlbuf, rs =>
      let r := readLineBuf n rlbuf rs
      r.1 :: readLineBufCalls ns r.2.1 r.2.2

/-- What is still to be read: the window, then the descriptor. -/
def pending (rlbuf : ReadlineBuf) (rs : List (Reply readlineMaxBuf)) : List Event :=
  ofBytes rlbuf.window ++ events rs

@[simp] theorem readLineBufInit_window (rlbuf : ReadlineBuf) :
    (readLineBufInit rlbuf).window = [] := by
  simp [ReadlineBuf.window, readLineBufInit]

theorem pending_init (rlbuf : ReadlineBuf) (rs : List (Reply readlineMaxBuf)) :
    pending (readLineBufInit rlbuf) rs = events rs := by
  simp [pending, ofBytes]

@[simp] theorem drained_window (rlbuf : ReadlineBuf) (len : ℤ) (h : len ≤ 0) :
    (rlbuf.drained len h).window = [] := by
  simp [ReadlineBuf.window, ReadlineBuf.drained, Int.toNat_of_nonpos h]

@[simp] theorem fill_window (rlbuf : ReadlineBuf) (bytes : List UInt8)
    (h : bytes.length ≤ readlineMaxBuf) : (rlbuf.fill bytes h).window = bytes := by
  apply List.ext_getElem
  · simpa [ReadlineBuf.window, ReadlineBuf.fill] using h
  · intro i h₁ h₂
    simp [ReadlineBuf.window, ReadlineBuf.fill, h₂]

theorem window_advance (rlbuf : ReadlineBuf) {next : ℕ} (h : rlbuf.next ≤ next) :
    ({ rlbuf with next := next } : ReadlineBuf).window =
      rlbuf.window.drop (next - rlbuf.next) := by
  simp only [ReadlineBuf.window, List.drop_drop]
  congr 1
  omega

/-- What a call does to the pending stream: the loop of `readLine` without its restart,
so that an interrupted read ends the call like any other error. -/
def failingLoop (n : ℕ) : List Event → List UInt8 → LineResult × List Event
  | [], text => (.finished text, [])
  | .error e :: es, text => (.failed e text, es)
  | .byte ch :: es, text =>
      if ch = newline then (.finished (storeByte n text ch), es)
      else failingLoop n es (storeByte n text ch)

/-- A window without a newline is stored and consumed whole. -/
theorem failingLoop_scan_none {n i : ℕ} {w text t : List UInt8}
    (h : scanWindow n w i text = (t, none)) (es : List Event) :
    failingLoop n (ofBytes w ++ es) text = failingLoop n es t := by
  induction w generalizing i text with
  | nil =>
      obtain rfl : text = t := by simpa [scanWindow] using h
      rfl
  | cons ch w ih =>
      by_cases hch : ch = newline
      · simp [scanWindow, hch] at h
      · simp only [scanWindow, if_neg hch] at h
        simpa [ofBytes, failingLoop, hch] using ih h

/-- A newline in the window ends the line and leaves the bytes behind it. -/
theorem failingLoop_scan_some {n i next : ℕ} {w text t : List UInt8}
    (h : scanWindow n w i text = (t, some next)) (es : List Event) :
    i < next ∧
      failingLoop n (ofBytes w ++ es) text = (.finished t, ofBytes (w.drop (next - i)) ++ es) := by
  induction w generalizing i text with
  | nil => simp [scanWindow] at h
  | cons ch w ih =>
      by_cases hch : ch = newline
      · obtain ⟨rfl, rfl⟩ : storeByte n text ch = t ∧ i + 1 = next := by
          simpa [scanWindow, hch] using h
        exact ⟨by omega, by simp [ofBytes, failingLoop, hch]⟩
      · simp only [scanWindow, if_neg hch] at h
        obtain ⟨hlt, hrun⟩ := ih h
        have hdrop : (ch :: w).drop (next - i) = w.drop (next - (i + 1)) := by
          rw [show next - i = next - (i + 1) + 1 by omega, List.drop_succ_cons]
        refine ⟨by omega, ?_⟩
        rw [hdrop]
        simpa [ofBytes, failingLoop, hch] using hrun

/-- One call returns what the loop over the pending stream returns and leaves the same
stream pending, however the stream is split into reads. The induction is on the replies,
with the window and the bytes stored so far as they are when a refill starts. -/
theorem readLineBufLoop_pending (n : ℕ) (rs : List (Reply readlineMaxBuf)) (rlbuf : ReadlineBuf)
    (text : List UInt8) :
    let r := readLineBufLoop n rs rlbuf text
    failingLoop n (pending rlbuf rs) text = (r.1, pending r.2.1 r.2.2) := by
  induction rs generalizing rlbuf text with
  | nil =>
      simp only [pending]
      rw [readLineBufLoop]
      rcases hscan : scanWindow n rlbuf.window rlbuf.next text with ⟨t, _ | next⟩
      · rw [failingLoop_scan_none hscan]
        simp [events, ofBytes, failingLoop]
      · obtain ⟨hlt, hrun⟩ := failingLoop_scan_some hscan (events [])
        rw [hrun, ← window_advance rlbuf hlt.le]
  | cons r rs ih =>
      simp only [pending]
      rw [readLineBufLoop]
      rcases hscan : scanWindow n rlbuf.window rlbuf.next text with ⟨t, _ | next⟩
      · rw [failingLoop_scan_none hscan, events_cons]
        cases r with
        | error e => simp [Reply.events, ofBytes, failingLoop]
        | data bytes hne hle =>
            have hrec := ih (rlbuf.fill bytes hle) t
            simpa only [pending, fill_window, Reply.events] using hrec
      · obtain ⟨hlt, hrun⟩ := failingLoop_scan_some hscan (events (r :: rs))
        rw [hrun, ← window_advance rlbuf hlt.le]

theorem readLineBuf_pending {n : ℕ} (hn : n ≠ 0) (rlbuf : ReadlineBuf)
    (rs : List (Reply readlineMaxBuf)) :
    let r := readLineBuf n rlbuf rs
    failingLoop n (pending rlbuf rs) [] = (r.1, pending r.2.1 r.2.2) := by
  rw [readLineBuf, if_neg hn]
  exact readLineBufLoop_pending n rs rlbuf []

/-- Same return value and error, and the same line when there is one. -/
structure LineResult.Agrees (r r' : LineResult) : Prop where
  ret : r.ret = r'.ret
  errno : r.errno = r'.errno
  buffer : 0 < r.ret → r.buffer = r'.buffer

theorem LineResult.Agrees.rfl {r : LineResult} : r.Agrees r := ⟨Eq.refl _, Eq.refl _, fun _ => Eq.refl _⟩

/-- Without interruptions the restart makes no difference; at end of file the loops differ
only in the terminator of an empty line. -/
theorem failingLoop_agrees (n : ℕ) (fd : List Event) (text : List UInt8)
    (hint : Event.error .EINTR ∉ fd) :
    let r := failingLoop n fd text
    let r' := readLineLoop n fd text
    r.1.Agrees r'.1 ∧ r.2 = r'.2 ∧ Event.error .EINTR ∉ r.2 := by
  induction fd generalizing text with
  | nil =>
      by_cases htext : text.length = 0
      · obtain rfl := List.length_eq_zero_iff.mp htext
        exact ⟨⟨rfl, rfl, fun h => absurd h (lt_irrefl 0)⟩, rfl, hint⟩
      · simp only [failingLoop, readLineLoop, if_neg htext]
        exact ⟨.rfl, trivial, hint⟩
  | cons e fd ih =>
      obtain ⟨he, hrest⟩ : Event.error .EINTR ≠ e ∧ Event.error .EINTR ∉ fd := by
        simpa only [List.mem_cons, not_or] using hint
      cases e with
      | error e =>
          have hne : e ≠ .EINTR := fun h => he (by rw [h])
          simp only [failingLoop, readLineLoop, if_neg hne]
          exact ⟨.rfl, trivial, hrest⟩
      | byte ch =>
          by_cases hch : ch = newline
          · simp only [failingLoop, readLineLoop, if_pos hch]
            exact ⟨.rfl, trivial, hrest⟩
          · simpa only [failingLoop, readLineLoop, if_neg hch] using ih (storeByte n text ch) hrest

theorem readLineBuf_agrees {n : ℕ} (hn : n ≠ 0) (rs : List (Reply readlineMaxBuf))
    (rlbuf : ReadlineBuf) (hint : Event.error .EINTR ∉ pending rlbuf rs) :
    let r := readLineBuf n rlbuf rs
    let r' := readLine n (pending rlbuf rs)
    r.1.Agrees r'.1 ∧ pending r.2.1 r.2.2 = r'.2 ∧
      Event.error .EINTR ∉ pending r.2.1 r.2.2 := by
  have hagrees := failingLoop_agrees n (pending rlbuf rs) [] hint
  rw [readLineBuf_pending hn] at hagrees
  simpa only [readLine, if_neg hn] using hagrees

/-- Successive calls agree from any state of the window. -/
theorem readLineBufCalls_pending {ns : List ℕ} (hns : ∀ n ∈ ns, n ≠ 0) (rlbuf : ReadlineBuf)
    (rs : List (Reply readlineMaxBuf)) (hint : Event.error .EINTR ∉ pending rlbuf rs) :
    List.Forall₂ LineResult.Agrees (readLineBufCalls ns rlbuf rs)
      (readLineCalls ns (pending rlbuf rs)).1 := by
  induction ns generalizing rlbuf rs with
  | nil => exact .nil
  | cons n ns ih =>
      obtain ⟨hagrees, hpending, hint'⟩ := readLineBuf_agrees (hns n (by simp)) rs rlbuf hint
      have hrec := ih (fun m hm => hns m (by simp [hm])) (readLineBuf n rlbuf rs).2.1
        (readLineBuf n rlbuf rs).2.2 hint'
      rw [hpending] at hrec
      exact .cons hagrees hrec

theorem LineResult.Agrees.returns {r r' : LineResult} (h : r.Agrees r') {n : ℕ}
    {line : List UInt8} (hr : r'.Returns n line) : r.Returns n line := by
  refine ⟨h.ret.trans hr.ret, ?_⟩
  by_cases hpos : 0 < r.ret
  · rw [← hr.text, LineResult.text, LineResult.text, h.buffer hpos, h.ret]
  · have hzero : r.ret.toNat = 0 := by omega
    have hlen := hr.ret
    rw [← h.ret] at hlen
    have hnil : line.take (n - 1) = [] := List.length_eq_zero_iff.mp (by omega)
    rw [hnil, LineResult.text, hzero, List.take_zero]

theorem forall₂_returns {rs rs' : List LineResult} {xs : List (ℕ × List UInt8)}
    (h : List.Forall₂ LineResult.Agrees rs rs')
    (hx : List.Forall₂ (fun r nl => r.Returns nl.1 nl.2) rs' xs) :
    List.Forall₂ (fun r nl => r.Returns nl.1 nl.2) rs xs := by
  induction h generalizing xs with
  | nil => exact hx
  | cons hr _ ih =>
      cases hx with
      | cons hret hrest => exact .cons (hr.returns hret) (ih hrest)

/-- The buffered reader is the unbuffered one, on every stream, for every split
into reads and every sequence of buffer sizes. Without errors, the calls return
the successive lines of the stream, each cut to what fits its buffer, and the
lines followed by what is left are the stream. -/
theorem readLineBuf_refines_readLine (rlbuf : ReadlineBuf) (rs : List (Reply readlineMaxBuf))
    (ns : List ℕ) (hns : ∀ n ∈ ns, 1 ≤ n) (hint : Event.error .EINTR ∉ events rs) :
    List.Forall₂ LineResult.Agrees (readLineBufCalls ns (readLineBufInit rlbuf) rs)
        (readLineCalls ns (events rs)).1 ∧
      ∀ bs, events rs = ofBytes bs →
        List.Forall₂ (fun r nl => r.Returns nl.1 nl.2)
          (readLineBufCalls ns (readLineBufInit rlbuf) rs)
          (ns.zip (cutLines newline ns.length bs).1) ∧
        (cutLines newline ns.length bs).1.flatten ++ (cutLines newline ns.length bs).2 = bs ∧
        ∀ line ∈ (cutLines newline ns.length bs).1, IsLine newline line := by
  have hne : ∀ n ∈ ns, n ≠ 0 := fun n hn => Nat.one_le_iff_ne_zero.mp (hns n hn)
  have hpending := pending_init rlbuf rs
  have hcalls := readLineBufCalls_pending hne (readLineBufInit rlbuf) rs (hpending ▸ hint)
  rw [hpending] at hcalls
  refine ⟨hcalls, ?_⟩
  intro bs hbs
  refine ⟨?_, cutLines_flatten _ _ _, cutLines_isLine _ _ _⟩
  rw [hbs] at hcalls
  exact forall₂_returns hcalls (readLineCalls_ofBytes hne bs).1

/-- The line `ab` comes in two reads, the second of which already holds the start
of the next line; that line is cut short by an error, and the last byte is a line
of its own. -/
theorem readLineBuf_refines_readLine_split :
    List.Forall₂ LineResult.Agrees
      (readLineBufCalls [4, 2, 9] (readLineBufInit ⟨#v[7, 7, 7], 2, 3, by decide⟩)
        [.data [97, 98] (by decide) (by decide), .data [10, 99, 100] (by decide) (by decide),
          .error (.other 5), .data [101] (by decide) (by decide)])
      [⟨3, [97, 98, 10, 0], none⟩, ⟨-1, [99], some (.other 5)⟩, ⟨1, [101, 0], none⟩] :=
  (readLineBuf_refines_readLine ⟨#v[7, 7, 7], 2, 3, by decide⟩
    [.data [97, 98] (by decide) (by decide), .data [10, 99, 100] (by decide) (by decide),
      .error (.other 5), .data [101] (by decide) (by decide)] [4, 2, 9]
    (by decide) (by decide)).1

end TlpiExercises.ReadLine
