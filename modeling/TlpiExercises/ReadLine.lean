import TlpiExercises.LineCut

/-!
# Reading a line one byte at a time

`readLine` fetches single bytes until a newline, end of file or an error. The
file descriptor is the list of results its reads will give: each one-byte read
takes the next event, and after the last event every read returns end of file.
The book's `readLine` and the copy in the key-value server have this same body.
-/
namespace TlpiExercises.ReadLine

/-- The values of `errno` the line readers test or set. -/
inductive Errno where
  | EINTR
  | EINVAL
  | other (code : ℕ)
  deriving DecidableEq, Repr

/-- What one `read(fd, &ch, 1)` that is not at end of file gives. -/
inductive Event where
  | byte (ch : UInt8)
  | error (e : Errno)
  deriving DecidableEq, Repr

/-- `'\n'`. -/
abbrev newline : UInt8 := 10

/-- Result of a line reader: the return value, what was stored from the start of
the buffer on (with the terminating zero when one was stored), and the error
number when the return value is -1. -/
structure LineResult where
  ret : ℤ
  buffer : List UInt8
  errno : Option Errno
  deriving DecidableEq, Repr

/-- A return of -1. -/
def LineResult.failed (e : Errno) (buffer : List UInt8) : LineResult := ⟨-1, buffer, some e⟩

/-- The bytes are terminated and counted. -/
def LineResult.finished (text : List UInt8) : LineResult :=
  ⟨text.length, text ++ [0], none⟩

/-- Store one more byte unless the buffer is full up to its last place. -/
def storeByte (n : ℕ) (text : List UInt8) (ch : UInt8) : List UInt8 :=
  if text.length < n - 1 then text ++ [ch] else text

/-- The loop of `readLine`. `totRead` is the number of bytes stored so far. -/
def readLineLoop (n : ℕ) : List Event → List UInt8 → LineResult × List Event
  | [], text => if text.length = 0 then (⟨0, [], none⟩, []) else (.finished text, [])
  | .error e :: es, text =>
      if e = .EINTR then readLineLoop n es text else (.failed e text, es)
  | .byte ch :: es, text =>
      if ch = newline then (.finished (storeByte n text ch), es)
      else readLineLoop n es (storeByte n text ch)

/-- One call with a buffer of `n` bytes; the second component is the unread part
of the descriptor. -/
def readLine (n : ℕ) (fd : List Event) : LineResult × List Event :=
  if n = 0 then (.failed .EINVAL [], fd) else readLineLoop n fd []

/-- Successive calls on one descriptor, with these buffer sizes. -/
def readLineCalls : List ℕ → List Event → List LineResult × List Event
  | [], fd => ([], fd)
  | n :: ns, fd =>
      let r := readLine n fd
      let t := readLineCalls ns r.2
      (r.1 :: t.1, t.2)

/-- A descriptor that delivers these bytes and then end of file. -/
def ofBytes (bs : List UInt8) : List Event := bs.map .byte

theorem storeByte_take (n : ℕ) (l : List UInt8) (ch : UInt8) :
    storeByte n (l.take (n - 1)) ch = (l ++ [ch]).take (n - 1) := by
  by_cases h : l.length < n - 1
  · rw [storeByte, List.take_of_length_le h.le, if_pos h, List.take_of_length_le (by simp; omega)]
  · rw [storeByte, if_neg (by simp; omega), List.take_append_of_le_length (by omega)]

/-- Reads give exactly these bytes, with interruptions anywhere among them. -/
def Delivers (fd : List Event) (bs : List UInt8) : Prop :=
  fd.filter (· ≠ .error .EINTR) = ofBytes bs

theorem delivers_ofBytes (bs : List UInt8) : Delivers (ofBytes bs) bs := by
  apply List.filter_eq_self.mpr
  intro e he
  obtain ⟨ch, -, rfl⟩ := List.mem_map.mp he
  simp

/-- A byte arrives after those before it. -/
theorem Delivers.split {fd : List Event} {bs : List UInt8} {b : UInt8} {rest : List UInt8}
    (h : Delivers fd (bs ++ b :: rest)) :
    ∃ fd' es, fd = fd' ++ .byte b :: es ∧ Delivers fd' bs := by
  rw [Delivers, ofBytes, List.map_append, List.filter_eq_append_iff] at h
  obtain ⟨fd₁, fd₂, rfl, hfd₁, hfd₂⟩ := h
  obtain ⟨intr, es, rfl, hintr, -, -⟩ := List.filter_eq_cons_iff.mp hfd₂
  refine ⟨fd₁ ++ intr, es, by simp, ?_⟩
  rw [Delivers, List.filter_append, hfd₁, List.filter_eq_nil_iff.mpr hintr, List.append_nil, ofBytes]

/-- Bytes before the newline are stored as far as they fit; interrupted reads
are restarted and leave no trace. -/
theorem readLineLoop_delivers (n : ℕ) {fd : List Event} {body : List UInt8} (h : Delivers fd body)
    (hbody : newline ∉ body) (l : List UInt8) (es : List Event) :
    readLineLoop n (fd ++ es) (l.take (n - 1)) = readLineLoop n es ((l ++ body).take (n - 1)) := by
  induction fd generalizing body l with
  | nil =>
      obtain rfl : body = [] := by simpa [Delivers, ofBytes] using h
      simp
  | cons e fd ih =>
      cases e with
      | error e =>
          by_cases he : e = .EINTR
          · subst he
            have h' : Delivers fd body := by simpa [Delivers] using h
            simpa [readLineLoop] using ih h' hbody l
          · cases body <;> simp [Delivers, ofBytes, he] at h
      | byte ch =>
          cases body with
          | nil => simp [Delivers, ofBytes] at h
          | cons c body =>
              obtain ⟨rfl, h'⟩ : ch = c ∧ Delivers fd body := by simpa [Delivers, ofBytes] using h
              obtain ⟨hc, hbody'⟩ : newline ≠ ch ∧ newline ∉ body := by simpa using hbody
              have hrec := ih h' hbody' (l ++ [ch])
              simpa [readLineLoop, Ne.symm hc, storeByte_take] using hrec

/-- A line that ends in a newline: its first `n - 1` bytes are returned and the
whole line is consumed. -/
theorem readLine_terminated {n : ℕ} (hn : n ≠ 0) {fd : List Event} {body : List UInt8}
    (h : Delivers fd body) (hbody : newline ∉ body) (es : List Event) :
    readLine n (fd ++ .byte newline :: es) =
      (.finished ((body ++ [newline]).take (n - 1)), es) := by
  have hloop := readLineLoop_delivers n h hbody [] (.byte newline :: es)
  simp only [List.take_nil, List.nil_append] at hloop
  simp only [readLine, if_neg hn, hloop, readLineLoop, if_true, storeByte_take]

/-- A line that ends with the stream: nothing stored is end of file. -/
theorem readLine_eof {n : ℕ} (hn : n ≠ 0) {fd : List Event} {body : List UInt8}
    (h : Delivers fd body) (hbody : newline ∉ body) :
    readLine n fd =
      (if body.take (n - 1) = [] then ⟨0, [], none⟩ else .finished (body.take (n - 1)), []) := by
  have hloop := readLineLoop_delivers n h hbody [] []
  simp only [List.take_nil, List.nil_append, List.append_nil] at hloop
  simp only [readLine, if_neg hn, hloop, readLineLoop, List.length_eq_zero_iff]
  split_ifs <;> rfl

/-- The first line of a descriptor, up to its newline or the end of file. -/
inductive FirstLine : List Event → List UInt8 → Prop
  | terminated {fd : List Event} {line : List UInt8} :
      Delivers fd line → newline ∉ line → ∀ es, FirstLine (fd ++ .byte newline :: es) line
  | eof {fd : List Event} {line : List UInt8} : Delivers fd line → newline ∉ line → FirstLine fd line

/-- A line that fits is returned whole; its newline is kept if there is room. -/
theorem readLine_firstLine {n : ℕ} {fd : List Event} {line : List UInt8} (h : FirstLine fd line)
    (hne : line ≠ []) (hlen : line.length < n) :
    ∃ tail, (tail = [] ∨ tail = [newline]) ∧ (readLine n fd).1 = .finished (line ++ tail) := by
  cases h with
  | @terminated fd _ hdel hnl es =>
      refine ⟨[newline].take (n - 1 - line.length), ?_, ?_⟩
      · cases n - 1 - line.length <;> simp
      · rw [readLine_terminated (by omega) hdel hnl, List.take_append,
          List.take_of_length_le (by omega)]
  | eof hdel hnl =>
      refine ⟨[], .inl rfl, ?_⟩
      rw [readLine_eof (by omega) hdel hnl, List.take_of_length_le (by omega), if_neg hne,
        List.append_nil]

/-- The bytes of the line a call returned. -/
def LineResult.text (r : LineResult) : List UInt8 := r.buffer.take r.ret.toNat

@[simp] theorem LineResult.finished_text (l : List UInt8) : (LineResult.finished l).text = l := by
  simp [LineResult.text, LineResult.finished]

/-- What `r` returns of `line`: the bytes that fit, counted. -/
structure LineResult.Returns (r : LineResult) (n : ℕ) (line : List UInt8) : Prop where
  ret : r.ret = (line.take (n - 1)).length
  text : r.text = line.take (n - 1)

/-- On a stream without errors one call cuts off exactly the first line. -/
theorem readLine_ofBytes {n : ℕ} (hn : n ≠ 0) (bs : List UInt8) :
    (readLine n (ofBytes bs)).1.Returns n (cutLine newline bs).1 ∧
      (readLine n (ofBytes bs)).2 = ofBytes (cutLine newline bs).2 := by
  by_cases h : newline ∈ bs
  · obtain ⟨body, rest, rfl, hbody⟩ := List.eq_append_cons_of_mem h
    have hrun := readLine_terminated hn (delivers_ofBytes body) hbody (ofBytes rest)
    have hsplit : ofBytes (body ++ newline :: rest) =
        ofBytes body ++ .byte newline :: ofBytes rest := by simp [ofBytes]
    rw [cutLine_of_terminated hbody, hsplit, hrun]
    exact ⟨⟨rfl, by simp⟩, rfl⟩
  · have hrun := readLine_eof hn (delivers_ofBytes bs) h
    rw [cutLine_of_notMem h, hrun]
    refine ⟨?_, rfl⟩
    by_cases htake : bs.take (n - 1) = []
    · rw [if_pos htake]
      exact ⟨by simp [htake], by simp [htake, LineResult.text]⟩
    · rw [if_neg htake]
      exact ⟨rfl, by simp⟩

/-- On a stream without errors successive calls return the successive lines. -/
theorem readLineCalls_ofBytes {ns : List ℕ} (hns : ∀ n ∈ ns, n ≠ 0) (bs : List UInt8) :
    List.Forall₂ (fun r nl => r.Returns nl.1 nl.2) (readLineCalls ns (ofBytes bs)).1
        (ns.zip (cutLines newline ns.length bs).1) ∧
      (readLineCalls ns (ofBytes bs)).2 = ofBytes (cutLines newline ns.length bs).2 := by
  induction ns generalizing bs with
  | nil => exact ⟨.nil, rfl⟩
  | cons n ns ih =>
      obtain ⟨hret, hrest⟩ := readLine_ofBytes (hns n (by simp)) bs
      obtain ⟨hrets, hrests⟩ := ih (fun m hm => hns m (by simp [hm])) (cutLine newline bs).2
      simp only [readLineCalls, hrest, List.length_cons, cutLines, List.zip_cons_cons]
      exact ⟨.cons hret hrets, hrests⟩

end TlpiExercises.ReadLine
