import TlpiExercises.CText
import TlpiExercises.CyclicRange
import TlpiExercises.ReadLineBuf

/-!
# The sequence number servers

Both servers run the same loop and differ in how they read the request: `seqnum`
with `readLineBuf`, `seqnum2` with `readLine`. A request is the text of a length;
the reply is the current sequence number, which then grows by the length. The
counter is a `uint32_t`, the length an `int`, and the reply is printed as an `int`.
-/
namespace TlpiExercises.SeqNum
open ReadLine CText CyclicRange

/-- `INT_LEN`. -/
abbrev intLen : ℕ := 30

/-- A client as the server sees it: `accept` fails, or the connection has this
input and `write` returns this value. -/
inductive Connection (ι : Type) where
  | acceptError
  | accepted (cfd : ι) (written : ℤ)

/-- How an iteration ends. A failed `write` is only reported. -/
inductive Outcome where
  | acceptFailed
  | readFailed
  | badRequest
  | served (seqNum : UInt32) (reqLen : Int32) (seqNumStr : List UInt8) (writeOk : Bool)
  deriving DecidableEq, Repr

/-- The output of `"%d\n"` for the `uint32_t` argument `seqNum`. -/
def formatSeqNum (seqNum : UInt32) : List UInt8 := printInt seqNum.toInt32.toInt ++ [newline]

section Server

variable {ι : Type} (readRequest : ι → LineResult)

/-- One iteration of the client loop, with the new value of `seqNum`. -/
def iteration (seqNum : UInt32) : Connection ι → Outcome × UInt32
  | .acceptError => (.acceptFailed, seqNum)
  | .accepted cfd written =>
      let r := readRequest cfd
      if r.ret ≤ 0 then (.readFailed, seqNum)
      else
        let reqLen := atoi (cString r.buffer)
        if reqLen.toInt ≤ 0 then (.badRequest, seqNum)
        else
          let seqNumStr := snprintf intLen (formatSeqNum seqNum)
          (.served seqNum reqLen seqNumStr (written = seqNumStr.length), seqNum + reqLen.toUInt32)

/-- The loop over these connections. -/
def run (seqNum : UInt32) : List (Connection ι) → List Outcome × UInt32
  | [] => ([], seqNum)
  | c :: cs =>
      let r := iteration readRequest seqNum c
      let t := run r.2 cs
      (r.1 :: t.1, t.2)

/-- The length a connection asks for, if its line is read and starts with a
positive number. -/
def Connection.request : Connection ι → Option Int32
  | .acceptError => none
  | .accepted cfd _ =>
      let reqLen := atoi (cString (readRequest cfd).buffer)
      if 0 < (readRequest cfd).ret ∧ 0 < reqLen.toInt then some reqLen else none

end Server

/-- The request line of the `seqnum` server, from an uninitialised `rlbuf`. -/
def readRequestBuf (c : ReadlineBuf × List (Reply readlineMaxBuf)) : LineResult :=
  (readLineBuf intLen (readLineBufInit c.1) c.2).1

/-- The request line of the `seqnum2` server. -/
def readRequestLine (cfd : List Event) : LineResult := (readLine intLen cfd).1

/-- The ranges granted, as start and length. -/
def grants (outs : List Outcome) : List (ℕ × ℕ) :=
  outs.filterMap fun
    | .served seqNum reqLen _ _ => some (seqNum.toNat, reqLen.toInt.toNat)
    | _ => none

section Server

variable {ι : Type} {readRequest : ι → LineResult}

theorem toNat_add_toUInt32 (seqNum : UInt32) {reqLen : Int32} (h : 0 < reqLen.toInt) :
    (seqNum + reqLen.toUInt32).toNat = (seqNum.toNat + reqLen.toInt.toNat) % 2 ^ 32 := by
  have hle : 0 ≤ reqLen := Int32.le_iff_toInt_le.mpr (by simpa using h.le)
  rw [UInt32.toNat_add, Int32.toNat_toUInt32_of_le hle]
  rfl

/-- A connection without a proper request leaves the counter alone. -/
theorem iteration_none {c : Connection ι} (h : c.request readRequest = none) (seqNum : UInt32) :
    ∃ out, iteration readRequest seqNum c = (out, seqNum) ∧ grants [out] = [] := by
  cases c with
  | acceptError => exact ⟨.acceptFailed, rfl, rfl⟩
  | accepted cfd written =>
      simp only [Connection.request, ite_eq_right_iff, reduceCtorEq, imp_false, not_and, not_lt] at h
      by_cases hret : (readRequest cfd).ret ≤ 0
      · exact ⟨.readFailed, by simp only [iteration, if_pos hret], rfl⟩
      · have hlen := h (by omega)
        exact ⟨.badRequest, by simp only [iteration, if_neg hret, if_pos hlen], rfl⟩

/-- A proper request is granted the range from the counter on. -/
theorem iteration_some {c : Connection ι} {reqLen : Int32}
    (h : c.request readRequest = some reqLen) (seqNum : UInt32) :
    0 < reqLen.toInt ∧ ∃ writeOk, iteration readRequest seqNum c =
      (.served seqNum reqLen (snprintf intLen (formatSeqNum seqNum)) writeOk,
        seqNum + reqLen.toUInt32) := by
  cases c with
  | acceptError => simp [Connection.request] at h
  | accepted cfd written =>
      simp only [Connection.request, Option.ite_none_right_eq_some, Option.some.injEq] at h
      obtain ⟨⟨hret, hlen⟩, rfl⟩ := h
      refine ⟨hlen, written = (snprintf intLen (formatSeqNum seqNum)).length, ?_⟩
      simp only [iteration, if_neg (not_le.mpr hret), if_neg (not_le.mpr hlen)]

theorem run_append (seqNum : UInt32) (cs : List (Connection ι)) (c : Connection ι) :
    run readRequest seqNum (cs ++ [c]) =
      ((run readRequest seqNum cs).1 ++ [(iteration readRequest (run readRequest seqNum cs).2 c).1],
        (iteration readRequest (run readRequest seqNum cs).2 c).2) := by
  induction cs generalizing seqNum with
  | nil => rfl
  | cons d cs ih => simp [run, ih]

theorem grants_cons (out : Outcome) (outs : List Outcome) :
    grants (out :: outs) = grants [out] ++ grants outs := by
  rw [grants, ← List.singleton_append, List.filterMap_append]
  rfl

/-- The ranges granted in a run lie end to end on the circle of counter values. -/
theorem grants_consecutive (seqNum : UInt32) (cs : List (Connection ι)) :
    Consecutive (2 ^ 32) seqNum.toNat (grants (run readRequest seqNum cs).1) := by
  induction cs generalizing seqNum with
  | nil => exact .nil _
  | cons c cs ih =>
      simp only [run]
      rw [grants_cons]
      rcases hreq : c.request readRequest with _ | reqLen
      · obtain ⟨out, hiter, hgrants⟩ := iteration_none hreq seqNum
        simp only [hiter, hgrants, List.nil_append]
        exact ih seqNum
      · obtain ⟨hlen, writeOk, hiter⟩ := iteration_some hreq seqNum
        have hrec := ih (seqNum + reqLen.toUInt32)
        rw [toNat_add_toUInt32 seqNum hlen] at hrec
        simp only [hiter]
        exact .cons rfl (hrec.congr (Nat.mod_modEq _ _))

theorem grants_append (outs outs' : List Outcome) :
    grants (outs ++ outs') = grants outs ++ grants outs' :=
  List.filterMap_append

/-- What holds of every run from `seqNum` over the connections `cs`, whatever
connection comes next. -/
structure HandsOut (readRequest : ι → LineResult) (seqNum : UInt32) (cs : List (Connection ι)) :
    Prop where
  unchanged : ∀ c : Connection ι, c.request readRequest = none →
    (run readRequest seqNum (cs ++ [c])).2 = (run readRequest seqNum cs).2 ∧
      grants (run readRequest seqNum (cs ++ [c])).1 = grants (run readRequest seqNum cs).1
  served : ∀ (c : Connection ι) (reqLen : Int32), c.request readRequest = some reqLen →
    0 < reqLen.toInt ∧
      (run readRequest seqNum (cs ++ [c])).2.toNat =
        ((run readRequest seqNum cs).2.toNat + reqLen.toInt.toNat) % 2 ^ 32 ∧
      grants (run readRequest seqNum (cs ++ [c])).1 =
        grants (run readRequest seqNum cs).1 ++
          [((run readRequest seqNum cs).2.toNat, reqLen.toInt.toNat)]
  disjoint : ((grants (run readRequest seqNum cs).1).map Prod.snd).sum ≤ 2 ^ 32 →
    (grants (run readRequest seqNum cs).1).Pairwise fun r r' =>
      Disjoint (arc (2 ^ 32) r.1 r.2) (arc (2 ^ 32) r'.1 r'.2)

theorem handsOut (seqNum : UInt32) (cs : List (Connection ι)) :
    HandsOut readRequest seqNum cs where
  unchanged c hreq := by
    obtain ⟨out, hiter, hgrants⟩ := iteration_none hreq (run readRequest seqNum cs).2
    rw [run_append, hiter, grants_append, hgrants]
    exact ⟨rfl, List.append_nil _⟩
  served c reqLen hreq := by
    obtain ⟨hlen, writeOk, hiter⟩ := iteration_some hreq (run readRequest seqNum cs).2
    rw [run_append, hiter, grants_append]
    exact ⟨hlen, toNat_add_toUInt32 _ hlen, rfl⟩
  disjoint htotal := (grants_consecutive seqNum cs).pairwise_disjoint htotal

end Server

/-- Both servers hand out disjoint ranges. In every run `seqNum` changes only when
a request for a positive length is served, and then by that length modulo `2^32`;
each grant starts at the value before its update; and as long as the lengths
granted add up to at most `2^32`, the grants are pairwise disjoint. -/
theorem sequence_numbers_unique (seqNum : UInt32)
    (cs : List (Connection (ReadlineBuf × List (Reply readlineMaxBuf))))
    (cs' : List (Connection (List Event))) :
    HandsOut readRequestBuf seqNum cs ∧ HandsOut readRequestLine seqNum cs' :=
  ⟨handsOut seqNum cs, handsOut seqNum cs'⟩

/-- Ten numbers from six below the wrap, then five more. -/
theorem sequence_numbers_unique_wrap :
    grants (run readRequestLine 4294967290 [.accepted (ofBytes [49, 48, 10]) 12,
      .accepted (.error .EINTR :: ofBytes [53]) (-1)]).1 = [(4294967290, 10), (4, 5)] ∧
    Disjoint (arc (2 ^ 32) 4294967290 10) (arc (2 ^ 32) 4 5) := by
  have hgrants : grants (run readRequestLine 4294967290 [.accepted (ofBytes [49, 48, 10]) 12,
      .accepted (.error .EINTR :: ofBytes [53]) (-1)]).1 = [(4294967290, 10), (4, 5)] := by decide
  refine ⟨hgrants, ?_⟩
  have hdisjoint := (sequence_numbers_unique 4294967290 [] [.accepted (ofBytes [49, 48, 10]) 12,
      .accepted (.error .EINTR :: ofBytes [53]) (-1)]).2.disjoint
  rw [hgrants] at hdisjoint
  simpa using hdisjoint (by decide)

/-- The reply `seqNumStr` tells the client the value of `seqNum`: it was not cut
to fit the server's buffer, it ends in its newline, the client's `readLine` returns
it whole however the bytes arrive, and as a decimal number it is `seqNum`. -/
structure TellsSeqNum (seqNumStr : List UInt8) (seqNum : UInt32) : Prop where
  fits : (formatSeqNum seqNum).length < intLen ∧ seqNumStr = formatSeqNum seqNum
  terminated : seqNumStr.getLast? = some newline
  received : ∀ cfd, Delivers cfd seqNumStr → (readLine intLen cfd).1 = .finished seqNumStr
  decodes : scanInt seqNumStr = some ((seqNum.toNat : ℤ), [newline])

theorem formatSeqNum_length_lt (seqNum : UInt32) : (formatSeqNum seqNum).length < intLen := by
  have hlen := printInt_length_le seqNum.toInt32
  simp only [formatSeqNum, intLen, List.length_append, List.length_cons, List.length_nil]
  omega

theorem snprintf_formatSeqNum (seqNum : UInt32) :
    snprintf intLen (formatSeqNum seqNum) = formatSeqNum seqNum :=
  List.take_of_length_le (Nat.le_pred_of_lt (formatSeqNum_length_lt seqNum))

/-- The client's `readLine` returns any reply whole. -/
theorem readLine_formatSeqNum {seqNum : UInt32} {cfd : List Event}
    (h : Delivers cfd (formatSeqNum seqNum)) :
    (readLine intLen cfd).1 = .finished (formatSeqNum seqNum) := by
  obtain ⟨fd, es, rfl, hfd⟩ := h.split
  have hnl : newline ∉ printInt seqNum.toInt32.toInt :=
    (isNumeral_printInt _).notMem (by decide) (by decide) (by decide)
  rw [readLine_terminated (by decide) hfd hnl]
  exact congrArg LineResult.finished (snprintf_formatSeqNum seqNum)

theorem scanInt_formatSeqNum (seqNum : UInt32) :
    scanInt (formatSeqNum seqNum) = some (seqNum.toInt32.toInt, [newline]) :=
  scanInt_printInt _ (by decide) []

/-- As an `int` the counter keeps its value exactly in the lower half of its range. -/
theorem toInt32_toInt_eq_iff (seqNum : UInt32) :
    seqNum.toInt32.toInt = seqNum.toNat ↔ seqNum.toNat < 2 ^ 31 := by
  have hcond := BitVec.toInt_eq_toNat_cond seqNum.toBitVec
  have hlt := seqNum.toNat_lt
  simp only [UInt32.toNat_toBitVec] at hcond
  change seqNum.toBitVec.toInt = seqNum.toNat ↔ _
  rw [hcond]
  split_ifs <;> omega

theorem tellsSeqNum_iff (seqNum : UInt32) :
    TellsSeqNum (snprintf intLen (formatSeqNum seqNum)) seqNum ↔ seqNum.toNat < 2 ^ 31 := by
  rw [snprintf_formatSeqNum, ← toInt32_toInt_eq_iff]
  constructor
  · intro h
    have hdec := h.decodes
    rw [scanInt_formatSeqNum] at hdec
    exact (Prod.mk.inj (Option.some.inj hdec)).1
  · intro h
    exact ⟨⟨formatSeqNum_length_lt seqNum, rfl⟩, by simp [formatSeqNum],
      fun cfd hcfd => readLine_formatSeqNum hcfd, by rw [scanInt_formatSeqNum, h]⟩

/-- In every run, a reply tells the client the start of its range exactly when the
counter is in the lower half of its range. -/
def RepliesTell {ι : Type} (readRequest : ι → LineResult) (seqNum : UInt32)
    (cs : List (Connection ι)) : Prop :=
  ∀ (c : Connection ι) (reqLen : Int32), c.request readRequest = some reqLen →
    ∃ seqNumStr writeOk, (run readRequest seqNum (cs ++ [c])).1 =
        (run readRequest seqNum cs).1 ++
          [.served (run readRequest seqNum cs).2 reqLen seqNumStr writeOk] ∧
      (TellsSeqNum seqNumStr (run readRequest seqNum cs).2 ↔
        (run readRequest seqNum cs).2.toNat < 2 ^ 31)

theorem repliesTell {ι : Type} {readRequest : ι → LineResult} (seqNum : UInt32)
    (cs : List (Connection ι)) : RepliesTell readRequest seqNum cs := by
  intro c reqLen hreq
  obtain ⟨-, writeOk, hiter⟩ := iteration_some hreq (run readRequest seqNum cs).2
  refine ⟨_, writeOk, ?_, tellsSeqNum_iff _⟩
  rw [run_append, hiter]

/-- Both servers tell a client the number that starts its range as long as the
counter is below `2^31`, and only then. -/
theorem reply_tells_iff (seqNum : UInt32)
    (cs : List (Connection (ReadlineBuf × List (Reply readlineMaxBuf))))
    (cs' : List (Connection (List Event))) :
    RepliesTell readRequestBuf seqNum cs ∧ RepliesTell readRequestLine seqNum cs' :=
  ⟨repliesTell seqNum cs, repliesTell seqNum cs'⟩

/-- Requests for `2147483647` and 1 numbers bring the counter to `2^31`; the next
client is told `-2147483648`. -/
theorem reply_negative :
    (run readRequestLine 0 [.accepted (ofBytes [50, 49, 52, 55, 52, 56, 51, 54, 52, 55, 10]) 2,
      .accepted (ofBytes [49, 10]) 11, .accepted (ofBytes [49, 10]) 12]).1.getLast? =
        some (.served 2147483648 1 [45, 50, 49, 52, 55, 52, 56, 51, 54, 52, 56, 10] true) ∧
      ¬ TellsSeqNum [45, 50, 49, 52, 55, 52, 56, 51, 54, 52, 56, 10] 2147483648 := by
  refine ⟨by decide, ?_⟩
  intro h
  exact absurd h.decodes (by decide)

end TlpiExercises.SeqNum
