import TlpiExercises.ReadLineBuf
import Mathlib.Data.List.DropRight

/-!
# Calling the buffered reader again after an interruption

`readLine` restarts an interrupted read itself. `readLineBuf` returns -1 and leaves that
to its caller, but by then the bytes of the line that it moved to the caller's buffer are
gone from the window, and the next call starts the buffer again from its first place. So
the caller gets, of each line, what arrives after its last interruption.
-/
namespace TlpiExercises.ReadLine

/-- A call that fails has used up the reply with the error. -/
theorem readLineBufLoop_failed {n : ℕ} {rs : List (Reply readlineMaxBuf)} {rlbuf : ReadlineBuf}
    {text : List UInt8} {e : Errno} (h : (readLineBufLoop n rs rlbuf text).1.errno = some e) :
    (readLineBufLoop n rs rlbuf text).2.2.length < rs.length := by
  induction rs generalizing rlbuf text with
  | nil =>
      rw [readLineBufLoop] at h
      rcases hscan : scanWindow n rlbuf.window rlbuf.next text with ⟨t, _ | next⟩ <;>
        simp [hscan, LineResult.finished] at h
  | cons r rs ih =>
      rw [readLineBufLoop] at h ⊢
      rcases hscan : scanWindow n rlbuf.window rlbuf.next text with ⟨t, _ | next⟩
      · rw [hscan] at h
        cases r with
        | error e => simp
        | data bytes hne hle => exact (ih h).trans (by simp)
      · simp [hscan, LineResult.finished] at h

theorem readLineBuf_interrupted {n : ℕ} {rlbuf : ReadlineBuf} {rs : List (Reply readlineMaxBuf)}
    (h : (readLineBuf n rlbuf rs).1.errno = some .EINTR) :
    (readLineBuf n rlbuf rs).2.2.length < rs.length := by
  by_cases hn : n = 0
  · simp [readLineBuf, hn, LineResult.failed] at h
  · rw [readLineBuf, if_neg hn] at h ⊢
    exact readLineBufLoop_failed h

/-- A caller that calls `readLineBuf` again as long as it is interrupted. -/
def readLineBufRetry (n : ℕ) (rlbuf : ReadlineBuf) (rs : List (Reply readlineMaxBuf)) :
    LineResult × ReadlineBuf × List (Reply readlineMaxBuf) :=
  let r := readLineBuf n rlbuf rs
  if _ : r.1.errno = some .EINTR then readLineBufRetry n r.2.1 r.2.2 else r
termination_by rs.length
decreasing_by exact readLineBuf_interrupted ‹_›

/-- Successive lines for such a caller, with these buffer sizes. -/
def retryCalls : List ℕ → ReadlineBuf → List (Reply readlineMaxBuf) → List LineResult
  | [], _, _ => []
  | n :: ns, rlbuf, rs =>
      let r := readLineBufRetry n rlbuf rs
      r.1 :: retryCalls ns r.2.1 r.2.2

def Reply.isInterrupt {max : ℕ} : Reply max → Bool
  | .error .EINTR => true
  | _ => false

/-- The same reads without the interrupted ones. -/
def uninterrupted {max : ℕ} (rs : List (Reply max)) : List (Reply max) :=
  rs.filter fun r => !r.isInterrupt

/-- The bytes among some events. -/
def bytes (seg : List Event) : List UInt8 :=
  seg.filterMap fun
    | .byte ch => some ch
    | .error _ => none

/-- The bytes that arrive after the last interruption. -/
def received (seg : List Event) : List UInt8 := bytes (seg.rtakeWhile (· ≠ .error .EINTR))

/-- What the calls for one line do to the pending stream: at an interruption the bytes
stored so far are given up. -/
def retryLoop (n : ℕ) : List Event → List UInt8 → LineResult × List Event
  | [], text => (.finished text, [])
  | .error e :: es, text => if e = .EINTR then retryLoop n es [] else (.failed e text, es)
  | .byte ch :: es, text =>
      if ch = newline then (.finished (storeByte n text ch), es)
      else retryLoop n es (storeByte n text ch)

theorem retryLoop_eq (n : ℕ) (fd : List Event) (text : List UInt8) :
    retryLoop n fd text =
      if (failingLoop n fd text).1.errno = some .EINTR then
        retryLoop n (failingLoop n fd text).2 []
      else failingLoop n fd text := by
  induction fd generalizing text with
  | nil => simp [retryLoop, failingLoop, LineResult.finished]
  | cons e fd ih =>
      cases e with
      | error e =>
          by_cases he : e = .EINTR
          · simp [retryLoop, failingLoop, LineResult.failed, he]
          · simp [retryLoop, failingLoop, LineResult.failed, he]
      | byte ch =>
          by_cases hch : ch = newline
          · simp [retryLoop, failingLoop, LineResult.finished, hch]
          · simpa only [retryLoop, failingLoop, if_neg hch] using ih (storeByte n text ch)

/-- The induction is on the calls for the line. -/
theorem readLineBufRetry_pending {n : ℕ} (hn : n ≠ 0) (rlbuf : ReadlineBuf)
    (rs : List (Reply readlineMaxBuf)) :
    let r := readLineBufRetry n rlbuf rs
    retryLoop n (pending rlbuf rs) [] = (r.1, pending r.2.1 r.2.2) := by
  induction rlbuf, rs using readLineBufRetry.induct n with
  | case1 rlbuf rs r h ih =>
      rw [readLineBufRetry, retryLoop_eq, readLineBuf_pending hn, if_pos h, dif_pos h]
      exact ih
  | case2 rlbuf rs r h =>
      rw [readLineBufRetry, retryLoop_eq, readLineBuf_pending hn, if_neg h, dif_neg h]

/-- Only interruptions stand among the bytes. -/
def Interrupted (fd : List Event) : Prop := ∀ e, Event.error e ∈ fd → e = .EINTR

theorem Interrupted.subset {fd fd' : List Event} (h : Interrupted fd) (hsub : fd' ⊆ fd) :
    Interrupted fd' := fun e he => h e (hsub he)

/-- What the caller's buffer would hold, if it were long enough, after one more event. -/
def receive (text : List UInt8) : Event → List UInt8
  | .byte ch => text ++ [ch]
  | .error _ => []

/-- The calls for one line consume it and store what fits of the bytes received. -/
theorem retryLoop_line (n : ℕ) {fd : List Event} (h : Interrupted fd) (l : List UInt8) :
    retryLoop n fd (l.take (n - 1)) =
      (.finished (((cutLine (.byte newline) fd).1.foldl receive l).take (n - 1)),
        (cutLine (.byte newline) fd).2) := by
  induction fd generalizing l with
  | nil => rfl
  | cons e fd ih =>
      have hrest : Interrupted fd := h.subset (List.subset_cons_self e fd)
      cases e with
      | error e =>
          obtain rfl := h e (List.mem_cons_self ..)
          have hrec := ih hrest []
          simpa [retryLoop, cutLine, receive] using hrec
      | byte ch =>
          by_cases hch : ch = newline
          · simp [retryLoop, cutLine, receive, hch, storeByte_take]
          · have hrec := ih hrest (l ++ [ch])
            simpa [retryLoop, cutLine, receive, hch, storeByte_take] using hrec

theorem bytes_append (seg seg' : List Event) : bytes (seg ++ seg') = bytes seg ++ bytes seg' :=
  List.filterMap_append ..

theorem foldl_receive {seg : List Event} (h : Interrupted seg) :
    seg.foldl receive [] = received seg := by
  induction seg using List.reverseRecOn with
  | nil => rfl
  | append_singleton seg e ih =>
      rw [List.foldl_append, ih (h.subset (List.subset_append_left ..))]
      cases e with
      | error e =>
          obtain rfl := h e (by simp)
          simp [receive, received, bytes]
      | byte ch => simp [receive, received, bytes]

/-- One line of a caller that retries. -/
theorem readLineBufRetry_line {n : ℕ} (hn : n ≠ 0) (rlbuf : ReadlineBuf)
    (rs : List (Reply readlineMaxBuf)) (h : Interrupted (pending rlbuf rs)) :
    let r := readLineBufRetry n rlbuf rs
    let c := cutLine (.byte newline) (pending rlbuf rs)
    r.1 = .finished ((received c.1).take (n - 1)) ∧ pending r.2.1 r.2.2 = c.2 := by
  have hrun := retryLoop_line n h []
  have hseg := h.subset (cutLine_subset (.byte newline) (pending rlbuf rs)).1
  rw [List.take_nil, readLineBufRetry_pending hn, foldl_receive hseg] at hrun
  exact Prod.ext_iff.mp hrun

/-- A caller that retries gets, of each line, what fits of the bytes received. -/
theorem retryCalls_eq {ns : List ℕ} (hns : ∀ n ∈ ns, n ≠ 0) (rlbuf : ReadlineBuf)
    (rs : List (Reply readlineMaxBuf)) (h : Interrupted (pending rlbuf rs)) :
    retryCalls ns rlbuf rs =
      (ns.zip (cutLines (.byte newline) ns.length (pending rlbuf rs)).1).map fun x =>
        .finished ((received x.2).take (x.1 - 1)) := by
  induction ns generalizing rlbuf rs with
  | nil => rfl
  | cons n ns ih =>
      obtain ⟨hline, hpending⟩ := readLineBufRetry_line (hns n (by simp)) rlbuf rs h
      have hrest : Interrupted (pending (readLineBufRetry n rlbuf rs).2.1
          (readLineBufRetry n rlbuf rs).2.2) := by
        rw [hpending]
        exact h.subset (cutLine_subset _ _).2
      have hrec := ih (fun m hm => hns m (by simp [hm])) _ _ hrest
      rw [hpending] at hrec
      simp only [retryCalls, List.length_cons, cutLines, List.zip_cons_cons, List.map_cons, hline,
        hrec]

theorem failingLoop_errno {n : ℕ} {fd : List Event} {text : List UInt8} {e : Errno}
    (h : (failingLoop n fd text).1.errno = some e) : .error e ∈ fd := by
  induction fd generalizing text with
  | nil => simp [failingLoop, LineResult.finished] at h
  | cons e' fd ih =>
      cases e' with
      | error e' =>
          obtain rfl : e' = e := by simpa [failingLoop, LineResult.failed] using h
          simp
      | byte ch =>
          by_cases hch : ch = newline
          · simp [failingLoop, LineResult.finished, hch] at h
          · rw [failingLoop, if_neg hch] at h
            exact List.mem_cons_of_mem _ (ih h)

/-- Without interruptions there is nothing to retry. -/
theorem readLineBufRetry_of_notMem {n : ℕ} (hn : n ≠ 0) {rlbuf : ReadlineBuf}
    {rs : List (Reply readlineMaxBuf)} (hint : Event.error .EINTR ∉ pending rlbuf rs) :
    readLineBufRetry n rlbuf rs = readLineBuf n rlbuf rs := by
  have herrno : (readLineBuf n rlbuf rs).1.errno ≠ some .EINTR := by
    intro h
    have hrun : (failingLoop n (pending rlbuf rs) []).1.errno = some .EINTR := by
      rw [readLineBuf_pending hn]
      exact h
    exact hint (failingLoop_errno hrun)
  rw [readLineBufRetry, dif_neg herrno]

theorem retryCalls_of_notMem {ns : List ℕ} (hns : ∀ n ∈ ns, n ≠ 0) {rlbuf : ReadlineBuf}
    {rs : List (Reply readlineMaxBuf)} (hint : Event.error .EINTR ∉ pending rlbuf rs) :
    retryCalls ns rlbuf rs = readLineBufCalls ns rlbuf rs := by
  induction ns generalizing rlbuf rs with
  | nil => rfl
  | cons n ns ih =>
      have hn : n ≠ 0 := hns n (by simp)
      obtain ⟨-, -, hrest⟩ := readLineBuf_agrees hn rs rlbuf hint
      rw [retryCalls, readLineBufRetry_of_notMem hn hint, readLineBufCalls,
        ih (fun m hm => hns m (by simp [hm])) hrest]

theorem events_uninterrupted {max : ℕ} (rs : List (Reply max)) :
    events (uninterrupted rs) = (events rs).filter (· ≠ .error .EINTR) := by
  induction rs with
  | nil => rfl
  | cons r rs ih =>
      rw [events_cons, List.filter_append, ← ih]
      cases r with
      | data bytes hne hle =>
          have hbytes := delivers_ofBytes bytes
          rw [Delivers] at hbytes
          rw [Reply.events, hbytes]
          rfl
      | error e => cases e <;> rfl

theorem bytes_filter (seg : List Event) :
    bytes (seg.filter (· ≠ .error .EINTR)) = bytes seg := by
  induction seg with
  | nil => rfl
  | cons e seg ih =>
      by_cases he : e = .error .EINTR
      · simpa [he, bytes] using ih
      · have hcons : bytes (e :: seg) = bytes [e] ++ bytes seg := bytes_append [e] seg
        have hfilter : (e :: seg).filter (· ≠ .error .EINTR) =
            [e] ++ seg.filter (· ≠ .error .EINTR) := by simp [he]
        rw [hfilter, bytes_append, ih, hcons]

theorem received_of_notMem {seg : List Event} (h : Event.error .EINTR ∉ seg) :
    received seg = bytes seg := by
  rw [received, List.rtakeWhile_eq_self_iff.mpr]
  intro e he
  exact decide_eq_true fun heq => h (heq ▸ he)

theorem received_filter (seg : List Event) :
    received (seg.filter (· ≠ .error .EINTR)) = bytes seg := by
  rw [received_of_notMem (by simp), bytes_filter]

theorem ofBytes_bytes {seg : List Event} (h : Interrupted seg) (hint : Event.error .EINTR ∉ seg) :
    ofBytes (bytes seg) = seg := by
  induction seg with
  | nil => rfl
  | cons e seg ih =>
      cases e with
      | error e =>
          obtain rfl := h e (List.mem_cons_self ..)
          exact absurd (List.mem_cons_self ..) hint
      | byte ch =>
          have hrec := ih (h.subset (List.subset_cons_self ..))
            fun hmem => hint (List.mem_cons_of_mem _ hmem)
          simpa [bytes, ofBytes] using hrec

theorem bytes_eq_append_received (seg : List Event) :
    bytes seg = bytes (seg.rdropWhile (· ≠ .error .EINTR)) ++ received seg := by
  rw [received, ← bytes_append, List.rdropWhile_append_rtakeWhile]

theorem foldl_receive_ofBytes (l body : List UInt8) :
    (ofBytes body).foldl receive l = l ++ body := by
  induction body generalizing l with
  | nil => simp [ofBytes]
  | cons ch body ih => simpa [ofBytes, receive] using ih (l ++ [ch])

/-- Nothing of a line is lost exactly if no byte of it comes before an interruption. -/
theorem received_eq_bytes_iff {seg : List Event} (h : Interrupted seg) :
    received seg = bytes seg ↔ ∃ pre body, seg = pre ++ ofBytes body ∧ bytes pre = [] := by
  constructor
  · intro heq
    have hpre : bytes (seg.rdropWhile (· ≠ .error .EINTR)) = [] := by
      have hsplit := bytes_eq_append_received seg
      rw [heq] at hsplit
      exact List.append_left_eq_self.mp hsplit.symm
    have hkept : Interrupted (seg.rtakeWhile (· ≠ .error .EINTR)) :=
      h.subset (List.rtakeWhile_suffix _ _).subset
    refine ⟨seg.rdropWhile (· ≠ .error .EINTR), received seg, ?_, hpre⟩
    rw [received, ofBytes_bytes hkept, List.rdropWhile_append_rtakeWhile]
    intro hmem
    simpa using List.mem_rtakeWhile_imp hmem
  · rintro ⟨pre, body, rfl, hpre⟩
    have hempty : received pre = [] := by
      have hsplit := bytes_eq_append_received pre
      rw [hpre] at hsplit
      exact (List.append_eq_nil_iff.mp hsplit.symm).2
    rw [← foldl_receive h, List.foldl_append,
      foldl_receive (h.subset (List.subset_append_left ..)), foldl_receive_ofBytes, hempty,
      bytes_append, hpre]
    simp [bytes, ofBytes, List.filterMap_map]

/-- Restarted reads leave no trace in what `readLine` returns. -/
theorem readLineLoop_filter (n : ℕ) (fd : List Event) (text : List UInt8) :
    readLineLoop n (fd.filter (· ≠ .error .EINTR)) text =
      ((readLineLoop n fd text).1, (readLineLoop n fd text).2.filter (· ≠ .error .EINTR)) := by
  induction fd generalizing text with
  | nil => by_cases htext : text.length = 0 <;> simp [readLineLoop, htext]
  | cons e fd ih =>
      cases e with
      | error e =>
          by_cases he : e = .EINTR
          · simpa [readLineLoop, he] using ih text
          · simp [readLineLoop, he]
      | byte ch =>
          by_cases hch : ch = newline
          · simp [readLineLoop, hch]
          · simpa [readLineLoop, hch] using ih (storeByte n text ch)

theorem readLineCalls_filter (ns : List ℕ) (fd : List Event) :
    (readLineCalls ns (fd.filter (· ≠ .error .EINTR))).1 = (readLineCalls ns fd).1 := by
  induction ns generalizing fd with
  | nil => rfl
  | cons n ns ih =>
      have hcall : readLine n (fd.filter (· ≠ .error .EINTR)) =
          ((readLine n fd).1, (readLine n fd).2.filter (· ≠ .error .EINTR)) := by
        by_cases hn : n = 0
        · simp [readLine, hn]
        · simpa only [readLine, if_neg hn] using readLineLoop_filter n fd []
      simp only [readLineCalls, hcall, ih]

theorem finished_inj {t t' : List UInt8} :
    LineResult.finished t = LineResult.finished t' ↔ t = t' := by
  refine ⟨fun h => ?_, fun h => h ▸ rfl⟩
  have htext := congrArg LineResult.text h
  simpa using htext

/-- `readLine` returns the same lines whether or not its reads are interrupted. A caller
of `readLineBuf` that retries gets the lines of the same reads without the interruptions
exactly if of each line the bytes after its last interruption start with what fits of the
line. -/
theorem retried_lines_iff (rlbuf : ReadlineBuf) (rs : List (Reply readlineMaxBuf)) (ns : List ℕ)
    (hns : ∀ n ∈ ns, 1 ≤ n) (hintr : Interrupted (events rs)) :
    (readLineCalls ns (events rs)).1 = (readLineCalls ns (events (uninterrupted rs))).1 ∧
      (retryCalls ns (readLineBufInit rlbuf) rs =
          readLineBufCalls ns (readLineBufInit rlbuf) (uninterrupted rs) ↔
        ∀ x ∈ ns.zip (cutLines (.byte newline) ns.length (events rs)).1,
          (received x.2).take (x.1 - 1) = (bytes x.2).take (x.1 - 1)) := by
  have hne : ∀ n ∈ ns, n ≠ 0 := fun n hn => Nat.one_le_iff_ne_zero.mp (hns n hn)
  have hplain : Event.error .EINTR ∉ events (uninterrupted rs) := by
    simp [events_uninterrupted]
  have hintr' : Interrupted (events (uninterrupted rs)) := by
    rw [events_uninterrupted]
    exact hintr.subset (List.filter_subset_self _)
  refine ⟨by rw [events_uninterrupted, readLineCalls_filter], ?_⟩
  -- the run without interruptions is one of a caller that retries, too
  rw [← retryCalls_of_notMem hne (by rwa [pending_init]),
    retryCalls_eq hne _ rs (by rwa [pending_init]),
    retryCalls_eq hne _ (uninterrupted rs) (by rwa [pending_init]), pending_init, pending_init,
    events_uninterrupted, cutLines_filter (by simp), List.zip_map_right, List.map_map,
    List.map_inj_left]
  simp only [Function.comp_apply, Prod.map_fst, Prod.map_snd, id_eq, received_filter,
    finished_inj]

/-- An interruption before the first byte of a line does no harm. -/
theorem retried_lines_iff_before :
    retryCalls [5, 5] (readLineBufInit ⟨#v[7, 7, 7], 2, 3, by decide⟩)
        [.data [97, 10] (by decide) (by decide), .error .EINTR,
          .data [98, 10] (by decide) (by decide)] =
      readLineBufCalls [5, 5] (readLineBufInit ⟨#v[7, 7, 7], 2, 3, by decide⟩)
        [.data [97, 10] (by decide) (by decide), .data [98, 10] (by decide) (by decide)] :=
  (retried_lines_iff ⟨#v[7, 7, 7], 2, 3, by decide⟩
    [.data [97, 10] (by decide) (by decide), .error .EINTR,
      .data [98, 10] (by decide) (by decide)] [5, 5] (by decide)
    (by simp [Interrupted, events, Reply.events, ofBytes])).2.mpr (by decide)

/-- The stream is `abc` and a newline; the read after `ab` is interrupted, and the caller
gets `c` and the newline. -/
theorem interrupted_line_loses_start :
    retryCalls [5] (readLineBufInit ⟨#v[7, 7, 7], 2, 3, by decide⟩)
        [.data [97, 98] (by decide) (by decide), .error .EINTR,
          .data [99, 10] (by decide) (by decide)] = [.finished [99, 10]] ∧
      readLineBufCalls [5] (readLineBufInit ⟨#v[7, 7, 7], 2, 3, by decide⟩)
        (uninterrupted [.data [97, 98] (by decide) (by decide), .error .EINTR,
          .data [99, 10] (by decide) (by decide)]) = [.finished [97, 98, 99, 10]] := by
  refine ⟨?_, by decide⟩
  rw [retryCalls_eq (by decide) _ _
    (by simp [Interrupted, pending_init, events, Reply.events, ofBytes]), pending_init]
  decide

end TlpiExercises.ReadLine
