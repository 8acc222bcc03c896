import TlpiExercises.CText

/-!
# The sequence number server on a UNIX domain socket

A request is a number followed by `$`. The server copies what each `read` returns behind
what it has already, until a chunk has a `$`, adds the number to `seq` and replies with
the text of `seq`. The arrays of server and client have two bytes each and are kept, as
they are, from one connection to the next. A store outside of an array is undefined.

Reads behind the end of an array without a zero are left out: the lines that `printf` makes of
`incomingSeq` with `%s` are not modelled, and `atoi` stops at the end of the array at the latest.
-/
namespace TlpiExercises.UnixSeqNum
open CText

/-- `BUF_SZ`. -/
abbrev bufSz : ℕ := 2

/-- `'$'`. -/
abbrev dollar : UInt8 := 36

/-- The array with these bytes from position `pos` on. -/
def write {n : ℕ} (array : Vector UInt8 n) (pos : ℕ) (bytes : List UInt8)
    (h : pos + bytes.length ≤ n) : Vector UInt8 n :=
  ⟨(array.toList.take pos ++ bytes ++ array.toList.drop (pos + bytes.length)).toArray, by
    simp only [List.size_toArray, List.length_append, List.length_take, List.length_drop,
      Vector.length_toList]
    omega⟩

/-- A store that may go past the end of the array. -/
def store {n : ℕ} (array : Vector UInt8 n) (pos : ℕ) (bytes : List UInt8) :
    Option (Vector UInt8 n) :=
  if h : pos + bytes.length ≤ n then some (write array pos bytes h) else none

/-- The `n` bytes that `strncpy` stores: the string, padded with zeros. -/
def strncpy (src : List UInt8) (n : ℕ) : List UInt8 :=
  let s := cString (src.take n)
  s ++ List.replicate (n - s.length) 0

/-- What a `read` into an array of `BUF_SZ` bytes returns. -/
structure Chunk where
  bytes : List UInt8
  ne_nil : bytes ≠ []
  length_le : 0 + bytes.length ≤ bufSz

/-- The bytes of these reads together. -/
def joined (reads : List Chunk) : List UInt8 := (reads.map Chunk.bytes).flatten

/-- A connection as the server sees it: what the calls return. After the chunks `read`
returns zero or fails. -/
structure Connection where
  acceptOk : Bool
  reads : List Chunk
  eof : Bool
  writeOk : Bool
  closeOk : Bool

/-- Why the server stops: a store outside of an array, or a call that failed. -/
inductive Stop where
  | outOfBounds
  | failed
  deriving DecidableEq, Repr

structure Server where
  seq : Int32
  buf : Vector UInt8 bufSz
  incomingSeq : Vector UInt8 bufSz
  deriving DecidableEq, Repr

/-- The loop that reads the request. -/
def readLoop (eof : Bool) :
    List Chunk → ℕ → Vector UInt8 bufSz → Vector UInt8 bufSz →
      Except Stop (Vector UInt8 bufSz × Vector UInt8 bufSz)
  | [], _, buf, incomingSeq => if eof then .ok (buf, incomingSeq) else .error .failed
  | chunk :: rest, last, buf, incomingSeq =>
      let readBytes := chunk.bytes.length
      let buf := write buf 0 chunk.bytes chunk.length_le
      match store incomingSeq last (strncpy buf.toList readBytes) with
      | none => .error .outOfBounds
      | some incomingSeq =>
          if dollar ∈ buf.toList.take readBytes then .ok (buf, incomingSeq)
          else readLoop eof rest (last + readBytes) buf incomingSeq

/-- The rest of an iteration: the new `seq`, printed into `buf`, is the reply. -/
def respond (c : Connection) (seq : Int32) (buf incomingSeq : Vector UInt8 bufSz) :
    Except Stop (List UInt8 × Server) :=
  let incoming := atoi (cString incomingSeq.toList)
  let seq := seq + incoming
  match store buf 0 (printInt seq.toInt ++ [0]) with
  | none => .error .outOfBounds
  | some buf =>
      if c.writeOk ∧ c.closeOk then .ok (cString buf.toList, ⟨seq, buf, incomingSeq⟩)
      else .error .failed

/-- One iteration of the connection loop, with the reply. -/
def serve (s : Server) (c : Connection) : Except Stop (List UInt8 × Server) :=
  if c.acceptOk then do
    let (buf, incomingSeq) ← readLoop c.eof c.reads 0 s.buf s.incomingSeq
    respond c s.seq buf incomingSeq
  else .error .failed

/-- The connection loop, with the replies. -/
def serveAll (s : Server) : List Connection → Except Stop (List (List UInt8) × Server)
  | [] => .ok ([], s)
  | c :: cs => do
      let (reply, s) ← serve s c
      let (replies, s) ← serveAll s cs
      .ok (reply :: replies, s)

/-- The client's loop that reads the reply into `data`. -/
def receive (data : Vector UInt8 bufSz) : List Chunk → ℕ → Option (Vector UInt8 bufSz)
  | [], _ => some data
  | chunk :: rest, dataSz =>
      match store data dataSz (strncpy chunk.bytes chunk.bytes.length) with
      | none => none
      | some data => receive data rest (dataSz + chunk.bytes.length)

/-- A number, in the text of an `int`, and so many zeros behind it. -/
structure Request where
  text : List UInt8
  value : Int32
  zeros : ℕ
  numeral : IsNumeral text value.toInt

def Request.bytes (r : Request) : List UInt8 := (r.text ++ List.replicate r.zeros 0) ++ [dollar]

/-- A request that `incomingSeq` has room for. -/
def Request.OneDigit (r : Request) : Prop := r.text.length = 1 ∧ r.zeros = 0

/-- The connection brings this request, in any chunks, and no call fails. -/
structure Sends (r : Request) (c : Connection) : Prop where
  acceptOk : c.acceptOk
  writeOk : c.writeOk
  closeOk : c.closeOk
  joined_eq : joined c.reads = r.bytes

/-- The replies of a server whose `seq` grows by each number. -/
def replies (seq : ℤ) : List Request → List (List UInt8)
  | [] => []
  | r :: rs => printInt (seq + r.value.toInt) :: replies (seq + r.value.toInt) rs

def total (rs : List Request) : ℤ := (rs.map fun r => r.value.toInt).sum

/-- The server has served these requests with these replies, `seq` has grown by their sum,
and a client can store each reply, in whatever chunks it comes. -/
def Served (s : Server) (rs : List Request) (result : Except Stop (List (List UInt8) × Server)) :
    Prop :=
  ∃ s', result = .ok (replies s.seq.toInt rs, s') ∧ s'.seq.toInt = s.seq.toInt + total rs ∧
    ∀ reply ∈ replies s.seq.toInt rs, ∀ reads, joined reads = reply →
      ∀ data, (receive data reads 0).isSome

section Arrays

variable {n : ℕ} (array : Vector UInt8 n)

theorem toList_write {pos : ℕ} {bytes : List UInt8} (h : pos + bytes.length ≤ n) :
    (write array pos bytes h).toList =
      array.toList.take pos ++ bytes ++ array.toList.drop (pos + bytes.length) := rfl

/-- What was written is read back behind what stood before it. -/
theorem take_write {pos : ℕ} {bytes : List UInt8} (h : pos + bytes.length ≤ n) :
    (write array pos bytes h).toList.take (pos + bytes.length) =
      array.toList.take pos ++ bytes := by
  have hlen : (array.toList.take pos ++ bytes).length = pos + bytes.length := by
    simp only [List.length_append, List.length_take, Vector.length_toList]
    omega
  rw [toList_write, ← hlen, List.take_left]

theorem take_write_zero {bytes : List UInt8} (h : 0 + bytes.length ≤ n) :
    (write array 0 bytes h).toList.take bytes.length = bytes := by
  simpa using take_write array h

@[simp] theorem length_strncpy (src : List UInt8) (n : ℕ) : (strncpy src n).length = n := by
  have hle : (cString (src.take n)).length ≤ n :=
    (List.takeWhile_prefix _).length_le.trans (List.length_take_le n src)
  simp only [strncpy, List.length_append, List.length_replicate]
  omega

/-- Bytes without a zero are copied as they are. -/
theorem strncpy_of_notMem {src : List UInt8} (h : 0 ∉ src) : strncpy src src.length = src := by
  simp only [strncpy, List.take_length, cString_eq_self h, Nat.sub_self, List.replicate_zero,
    List.append_nil]

theorem store_of_le {pos : ℕ} {bytes : List UInt8} (h : pos + bytes.length ≤ n) :
    store array pos bytes = some (write array pos bytes h) := dif_pos h

theorem store_of_lt {pos : ℕ} {bytes : List UInt8} (h : n < pos + bytes.length) :
    store array pos bytes = none := dif_neg (by omega)

end Arrays

theorem joined_cons (chunk : Chunk) (reads : List Chunk) :
    joined (chunk :: reads) = chunk.bytes ++ joined reads := by
  simp [joined]

/-- One round of the loop. -/
theorem readLoop_cons (eof : Bool) (chunk : Chunk) (rest : List Chunk) (last : ℕ)
    (buf incomingSeq : Vector UInt8 bufSz) :
    readLoop eof (chunk :: rest) last buf incomingSeq =
      match store incomingSeq last (strncpy chunk.bytes chunk.bytes.length) with
      | none => .error .outOfBounds
      | some incomingSeq =>
          if dollar ∈ chunk.bytes then .ok (write buf 0 chunk.bytes chunk.length_le, incomingSeq)
          else readLoop eof rest (last + chunk.bytes.length)
            (write buf 0 chunk.bytes chunk.length_le) incomingSeq := by
  have hsrc : strncpy (write buf 0 chunk.bytes chunk.length_le).toList chunk.bytes.length =
      strncpy chunk.bytes chunk.bytes.length := by
    simp only [strncpy, take_write_zero, List.take_length]
  rw [readLoop]
  simp only [hsrc, take_write_zero]

/-- The terminator is in the last chunk only. -/
theorem joined_cons_cases {w : List UInt8} {chunk : Chunk} {rest : List Chunk}
    (h : joined (chunk :: rest) = w ++ [dollar]) :
    chunk.bytes = w ++ [dollar] ∨ ∃ v, w = chunk.bytes ++ v ∧ joined rest = v ++ [dollar] := by
  rw [joined_cons] at h
  rcases List.append_eq_append_iff.mp h with ⟨v, hv, hrest⟩ | ⟨v, hv, hrest⟩
  · exact .inr ⟨v, hv, hrest⟩
  · cases v with
    | nil => exact .inr ⟨[], by simpa using hv.symm, by simpa using hrest.symm⟩
    | cons c v =>
        rw [List.cons_append, List.cons.injEq] at hrest
        obtain ⟨rfl, hnil⟩ := hrest
        rw [(List.append_eq_nil_iff.mp hnil.symm).1] at hv
        exact .inl hv

/-- A request that is too long for `incomingSeq`. -/
theorem readLoop_outOfBounds (eof : Bool) {w : List UInt8} (hw : dollar ∉ w) (reads : List Chunk)
    (last : ℕ) (buf incomingSeq : Vector UInt8 bufSz) (hjoined : joined reads = w ++ [dollar])
    (hlong : bufSz < last + (w.length + 1)) :
    readLoop eof reads last buf incomingSeq = .error .outOfBounds := by
  induction reads generalizing w last buf incomingSeq with
  | nil => simp [joined] at hjoined
  | cons chunk rest ih =>
      rw [readLoop_cons]
      by_cases hfits : last + chunk.bytes.length ≤ bufSz
      · rw [store_of_le _ (by simpa using hfits)]
        obtain hlast | ⟨v, rfl, hrest⟩ := joined_cons_cases hjoined
        · rw [hlast, List.length_append, List.length_singleton] at hfits
          omega
        · rw [List.mem_append, not_or] at hw
          simp only [if_neg hw.1]
          refine ih hw.2 _ _ _ hrest ?_
          rw [List.length_append] at hlong
          omega
      · rw [store_of_lt _ (by rw [length_strncpy]; omega)]

/-- A request that fits is in `incomingSeq` behind what was there. -/
theorem readLoop_fits (eof : Bool) {w : List UInt8} (hw : dollar ∉ w) (hzero : 0 ∉ w)
    (reads : List Chunk) (last : ℕ) (buf incomingSeq : Vector UInt8 bufSz)
    (hjoined : joined reads = w ++ [dollar]) (hfits : last + (w.length + 1) ≤ bufSz) :
    ∃ buf' incomingSeq', readLoop eof reads last buf incomingSeq = .ok (buf', incomingSeq') ∧
      incomingSeq'.toList.take (last + (w.length + 1)) =
        incomingSeq.toList.take last ++ (w ++ [dollar]) := by
  induction reads generalizing w last buf incomingSeq with
  | nil => simp [joined] at hjoined
  | cons chunk rest ih =>
      rw [readLoop_cons]
      obtain hlast | ⟨v, rfl, hrest⟩ := joined_cons_cases hjoined
      · have hclean : 0 ∉ chunk.bytes := by
          rw [hlast, List.mem_append, not_or]
          exact ⟨hzero, by decide⟩
        have hlen : chunk.bytes.length = w.length + 1 := by simp [hlast]
        rw [strncpy_of_notMem hclean, store_of_le _ (by omega)]
        have hmem : dollar ∈ chunk.bytes := by simp [hlast]
        simp only [if_pos hmem]
        refine ⟨_, _, rfl, ?_⟩
        rw [← hlen, take_write, hlast]
      · rw [List.mem_append, not_or] at hw hzero
        rw [List.length_append] at hfits ⊢
        rw [strncpy_of_notMem hzero.1, store_of_le _ (by omega)]
        simp only [if_neg hw.1]
        obtain ⟨buf', incomingSeq', hrun, htake⟩ :=
          ih hw.2 hzero.2 (last + chunk.bytes.length) (write buf 0 chunk.bytes chunk.length_le)
            (write incomingSeq last chunk.bytes (by omega)) hrest (by omega)
        refine ⟨buf', incomingSeq', hrun, ?_⟩
        rw [take_write] at htake
        simpa [add_assoc] using htake

/-- The client's stores are inside `data` as long as the reply is. -/
theorem receive_isSome (reads : List Chunk) (dataSz : ℕ) (data : Vector UInt8 bufSz)
    (h : dataSz + (joined reads).length ≤ bufSz) : (receive data reads dataSz).isSome := by
  induction reads generalizing dataSz data with
  | nil => rfl
  | cons chunk rest ih =>
      rw [joined_cons, List.length_append] at h
      rw [receive, store_of_le _ (by rw [length_strncpy]; omega)]
      exact ih _ _ (by omega)

namespace Request

variable (r : Request)

theorem dollar_notMem_text : dollar ∉ r.text :=
  r.numeral.notMem (by decide) (by decide) (by decide)

theorem zero_notMem_text : 0 ∉ r.text :=
  r.numeral.notMem (by decide) (by decide) (by decide)

theorem dollar_notMem : dollar ∉ r.text ++ List.replicate r.zeros 0 := by
  rw [List.mem_append, not_or]
  exact ⟨r.dollar_notMem_text, fun h => absurd (List.eq_of_mem_replicate h) (by decide)⟩

theorem length_le_iff : (r.text ++ List.replicate r.zeros 0).length + 1 ≤ bufSz ↔ r.OneDigit := by
  have hpos := List.length_pos_iff.mpr r.numeral.ne_nil
  rw [List.length_append, List.length_replicate, OneDigit, bufSz]
  omega

end Request

section Serve

variable {s : Server} {r : Request} {c : Connection}

/-- `incomingSeq` has no room for the request. -/
theorem serve_of_not_oneDigit (h : Sends r c) (hlong : ¬r.OneDigit) :
    serve s c = .error .outOfBounds := by
  have hloop : readLoop c.eof c.reads 0 s.buf s.incomingSeq = .error .outOfBounds := by
    refine readLoop_outOfBounds c.eof r.dollar_notMem c.reads 0 _ _ h.joined_eq ?_
    rw [← r.length_le_iff] at hlong
    omega
  rw [serve, if_pos h.acceptOk, hloop]
  rfl

/-- What is left to do with a request of one digit. -/
theorem serve_of_oneDigit (h : Sends r c) (hone : r.OneDigit) :
    ∃ buf incomingSeq, serve s c =
      match store buf 0 (printInt (s.seq + r.value).toInt ++ [0]) with
      | none => .error .outOfBounds
      | some buf => .ok (cString buf.toList, ⟨s.seq + r.value, buf, incomingSeq⟩) := by
  have hfits := r.length_le_iff.mpr hone
  rw [hone.2, List.replicate_zero, List.append_nil] at hfits
  have hjoined : joined c.reads = r.text ++ [dollar] := by
    rw [h.joined_eq, Request.bytes, hone.2, List.replicate_zero, List.append_nil]
  obtain ⟨buf, incomingSeq, hloop, htake⟩ := readLoop_fits c.eof r.dollar_notMem_text
    r.zero_notMem_text c.reads 0 s.buf s.incomingSeq hjoined (by omega)
  have hseq : incomingSeq.toList = r.text ++ [dollar] := by
    rw [List.take_of_length_le (by simp [hone.1])] at htake
    simpa using htake
  have hincoming : atoi (cString incomingSeq.toList) = r.value := by
    have hzero : 0 ∉ r.text ++ [dollar] := by
      rw [List.mem_append, not_or]
      exact ⟨r.zero_notMem_text, by decide⟩
    rw [hseq, cString_eq_self hzero]
    exact atoi_numeral r.numeral (head_not_digit (by decide) [])
  refine ⟨buf, incomingSeq, ?_⟩
  have hserve : serve s c = respond c s.seq buf incomingSeq := by
    rw [serve, if_pos h.acceptOk, hloop]
    rfl
  rw [hserve]
  unfold respond
  -- Left as a term, the number would be evaluated when the stores are compared.
  generalize atoi (cString incomingSeq.toList) = incoming at hincoming
  subst hincoming
  cases hstore : store buf 0 (printInt (s.seq + r.value).toInt ++ [0]) with
  | none => simp only [hstore]
  | some buf => simp only [hstore, h.writeOk, h.closeOk, and_self, if_true]

/-- A request is served exactly when it has one digit and the new `seq` has. -/
theorem serve_cases (h : Sends r c) (hseq : 0 ≤ s.seq.toInt ∧ s.seq.toInt ≤ 9) :
    (r.OneDigit ∧ s.seq.toInt + r.value.toInt ≤ 9 ∧
      ∃ s', serve s c = .ok (printInt s'.seq.toInt, s') ∧
        s'.seq.toInt = s.seq.toInt + r.value.toInt) ∨
    ¬(r.OneDigit ∧ s.seq.toInt + r.value.toInt ≤ 9) ∧ serve s c = .error .outOfBounds := by
  by_cases hone : r.OneDigit
  · have hvalue := r.numeral.of_length_one hone.1
    have hsum : (s.seq + r.value).toInt = s.seq.toInt + r.value.toInt :=
      toInt_add_of_le (by omega) (by omega)
    have hdigit := printInt_length_one (x := (s.seq + r.value).toInt) (by omega)
    obtain ⟨buf, incomingSeq, hserve⟩ := serve_of_oneDigit (s := s) h hone
    rw [hserve]
    by_cases hle : s.seq.toInt + r.value.toInt ≤ 9
    · have hlen : (printInt (s.seq + r.value).toInt).length = 1 := hdigit.mpr (by omega)
      have hzero := zero_notMem_printInt (s.seq + r.value).toInt
      refine .inl ⟨hone, hle, ?_⟩
      rw [store_of_le _ (by rw [List.length_append, hlen]; decide)]
      refine ⟨_, congrArg Except.ok (Prod.ext ?_ rfl), hsum⟩
      dsimp only
      rw [toList_write, List.take_zero, List.nil_append, List.append_assoc]
      exact (span_ne hzero _).1
    · refine .inr ⟨fun hboth => hle hboth.2, ?_⟩
      have hpos := List.length_pos_iff.mpr (isNumeral_printInt (s.seq + r.value).toInt).ne_nil
      have hlen : (printInt (s.seq + r.value).toInt).length ≠ 1 := fun heq =>
        hle (hsum ▸ hdigit.mp heq)
      rw [store_of_lt _ (by rw [List.length_append, List.length_singleton, bufSz]; omega)]
  · exact .inr ⟨fun hboth => hone hboth.1, serve_of_not_oneDigit h hone⟩

end Serve

theorem total_cons (r : Request) (rs : List Request) :
    total (r :: rs) = r.value.toInt + total rs := by
  simp [total]

theorem total_nonneg {rs : List Request} (h : ∀ r ∈ rs, r.OneDigit) : 0 ≤ total rs := by
  refine List.sum_nonneg fun x hx => ?_
  obtain ⟨r, hr, rfl⟩ := List.mem_map.mp hx
  exact (r.numeral.of_length_one (h r hr).1).1

/-- A client can store a reply of one byte. -/
theorem receive_printInt {x : ℤ} (h : 0 ≤ x ∧ x ≤ 9) {reads : List Chunk}
    (hreads : joined reads = printInt x) (data : Vector UInt8 bufSz) :
    (receive data reads 0).isSome := by
  refine receive_isSome reads 0 data ?_
  rw [hreads, (printInt_length_one h.1).mpr h.2, bufSz]
  omega

theorem serveAll_cons {s s' : Server} {c : Connection} {reply : List UInt8}
    (h : serve s c = .ok (reply, s')) (cs : List Connection) :
    serveAll s (c :: cs) = (serveAll s' cs).map fun p => (reply :: p.1, p.2) := by
  rw [serveAll, h]
  cases hcs : serveAll s' cs <;> simp [bind, Except.bind, hcs, Except.map]

/-- Serving the first request, then the others. -/
theorem served_cons_iff {s s' : Server} {r : Request} {c : Connection} {rs : List Request}
    {cs : List Connection} (hserve : serve s c = .ok (printInt s'.seq.toInt, s'))
    (hseq : s'.seq.toInt = s.seq.toInt + r.value.toInt)
    (hdigit : 0 ≤ s'.seq.toInt ∧ s'.seq.toInt ≤ 9) :
    Served s (r :: rs) (serveAll s (c :: cs)) ↔ Served s' rs (serveAll s' cs) := by
  simp only [Served, serveAll_cons hserve, replies, total_cons, ← hseq, List.forall_mem_cons]
  refine exists_congr fun t => ?_
  have hrecv : ∀ reads, joined reads = printInt s'.seq.toInt → ∀ data, (receive data reads 0).isSome :=
    fun reads hreads => receive_printInt hdigit hreads
  have hrun : (serveAll s' cs).map (fun p => (printInt s'.seq.toInt :: p.1, p.2)) =
        .ok (printInt s'.seq.toInt :: replies s'.seq.toInt rs, t) ↔
      serveAll s' cs = .ok (replies s'.seq.toInt rs, t) := by
    cases serveAll s' cs <;> simp [Except.map, Prod.ext_iff]
  rw [hrun, ← add_assoc, ← hseq]
  exact and_congr_right fun _ => and_congr_right fun _ => and_iff_right hrecv

theorem served_iff {rs : List Request} {cs : List Connection} (h : List.Forall₂ Sends rs cs)
    (s : Server) (hseq : 0 ≤ s.seq.toInt ∧ s.seq.toInt ≤ 9) :
    Served s rs (serveAll s cs) ↔
      (∀ r ∈ rs, r.OneDigit) ∧ s.seq.toInt + total rs ≤ 9 := by
  induction h generalizing s with
  | nil => simp [Served, serveAll, replies, total, hseq.2]
  | @cons r c rs cs hsends hrest ih =>
      rw [List.forall_mem_cons, total_cons]
      obtain ⟨hone, hle, s', hserve, hseq'⟩ | ⟨hnot, hserve⟩ := serve_cases hsends hseq
      · have hvalue := r.numeral.of_length_one hone.1
        rw [served_cons_iff hserve hseq' (by omega), ih s' (by omega), hseq', add_assoc,
          and_iff_right hone]
      · constructor
        · rintro ⟨t, hrun, -⟩
          rw [serveAll, hserve] at hrun
          cases hrun
        · rintro ⟨⟨hone, hones⟩, hle⟩
          have hnonneg := total_nonneg hones
          exact absurd ⟨hone, by omega⟩ hnot

/-- From `seq = 0`, whatever the arrays hold: the server does what it should exactly for
requests of one digit each that add up to nine at most. -/
theorem all_served_iff {rs : List Request} {cs : List Connection} (h : List.Forall₂ Sends rs cs)
    (buf incomingSeq : Vector UInt8 bufSz) :
    Served ⟨0, buf, incomingSeq⟩ rs (serveAll ⟨0, buf, incomingSeq⟩ cs) ↔
      (∀ r ∈ rs, r.OneDigit) ∧ total rs ≤ 9 := by
  have hzero : (0 : Int32).toInt = 0 := by decide
  have hiff := served_iff h ⟨0, buf, incomingSeq⟩ ⟨hzero.ge, by rw [hzero]; decide⟩
  rwa [hzero, zero_add] at hiff

/-- A request with the number as `printf` prints it. -/
abbrev Request.printed (x : Int32) (zeros : ℕ) : Request :=
  ⟨printInt x.toInt, x, zeros, isNumeral_printInt x.toInt⟩

/-- `"5$"` in one read and then `"4$"` in two. -/
theorem all_served_two :
    Served ⟨0, #v[0, 0], #v[0, 0]⟩ [.printed 5 0, .printed 4 0]
      (serveAll ⟨0, #v[0, 0], #v[0, 0]⟩
        [⟨true, [⟨[53, 36], by decide, by decide⟩], true, true, true⟩,
          ⟨true, [⟨[52], by decide, by decide⟩, ⟨[36], by decide, by decide⟩], true, true,
            true⟩]) := by
  refine (all_served_iff ?_ _ _).mpr ⟨?_, by decide⟩
  · exact .cons ⟨rfl, rfl, rfl, by decide⟩ (.cons ⟨rfl, rfl, rfl, by decide⟩ .nil)
  · exact List.forall_mem_cons.mpr
      ⟨⟨by decide, rfl⟩, List.forall_mem_singleton.mpr ⟨by decide, rfl⟩⟩

/-- The request of the client that comes with the server, `1000`, a zero and `$`: its third
byte is stored behind the end of `incomingSeq`. -/
theorem client_request_outOfBounds :
    let reads : List Chunk := [⟨[49, 48], by decide, by decide⟩, ⟨[48, 48], by decide, by decide⟩,
      ⟨[0, 36], by decide, by decide⟩]
    let c : Connection := ⟨true, reads, true, true, true⟩
    let s : Server := ⟨0, #v[0, 0], #v[0, 0]⟩
    Sends (.printed 1000 1) c ∧ serveAll s [c] = .error .outOfBounds ∧
      ¬Served s [.printed 1000 1] (serveAll s [c]) := by
  intro reads c s
  have hrun : serveAll s [c] = .error .outOfBounds := rfl
  refine ⟨⟨rfl, rfl, rfl, by decide⟩, hrun, ?_⟩
  rintro ⟨s', hok, -⟩
  rw [hrun] at hok
  cases hok

end TlpiExercises.UnixSeqNum
