import TlpiExercises.CText
import TlpiExercises.LittleEndian
import TlpiExercises.WatchRuns

/-!
# The bytes of the inotify events

`read` returns whole events, one behind the other: four numbers of four bytes each and a name
with zeros behind it, whose length is the last of the numbers. The loop of `watch` walks over them
with a pointer. A batch in the buffer is handled as the steps of the event queue handle it,
whatever an earlier batch has left behind.
-/
namespace TlpiExercises.InotifyBuffer
open CText LittleEndian PathName WatchDirectoryTree

/-- The name of an event with the zeros that fill it up to `len`. -/
def nameField (e : Event) : List UInt8 :=
  match e.name with
  | none => []
  | some n => n.val ++ List.replicate (e.size - 16 - n.val.length) 0

/-- An event with its cookie, as the kernel writes it. -/
def wire (e : UInt32 × Event) : List UInt8 :=
  encode 4 e.2.wd ++ (encode 4 e.2.mask.toNat ++ (encode 4 e.1.toNat ++
    (encode 4 (e.2.size - 16) ++ nameField e.2)))

/-- A field of the event at `p`, by its offset. -/
def fieldAt (buf : List UInt8) (p o : ℕ) : ℕ := decode ((buf.drop (p + o)).take 4)

def wdAt (buf : List UInt8) (p : ℕ) : ℕ := fieldAt buf p 0
def maskAt (buf : List UInt8) (p : ℕ) : UInt32 := UInt32.ofNat (fieldAt buf p 4)
def lenAt (buf : List UInt8) (p : ℕ) : ℕ := fieldAt buf p 12
def nameAt (buf : List UInt8) (p : ℕ) : List UInt8 := cString (buf.drop (p + 16))

/-- `handleEvent` on the event at `p`. -/
def handleAt (root buf : List UInt8) (p : ℕ) (s : State) : State :=
  if maskAt buf p &&& inCreate ≠ 0 && maskAt buf p &&& inIsDir ≠ 0 then
    if lenAt buf p = 0 then { s with stopped := some .noName }
    else if maxWatches ≤ wdAt buf p then { s with stopped := some .index }
    else
      let tmp := s.paths (wdAt buf p) ++ slash :: nameAt buf p
      if tmpSize ≤ tmp.length then { s with stopped := some .overflow } else watchDir root tmp s
  else s

/-- The loop over the first `numRead` bytes of `buf`, for at most so many events. -/
def watchLoop (root buf : List UInt8) (numRead : ℕ) : ℕ → ℕ → State → Option State
  | 0, _, _ => none
  | fuel + 1, p, s =>
      if p < numRead then
        let s' := handleAt root buf p s
        if s'.stopped = none then watchLoop root buf numRead fuel (p + (16 + lenAt buf p)) s'
        else some s'
      else some s

section Format

variable {e : UInt32 × Event}

theorem size_sub_of_some {n : Name} (h : e.2.name = some n) :
    e.2.size - 16 = (n.val.length / 16 + 1) * 16 := by
  simp [Event.size, h]

theorem size_sub_lt (e : UInt32 × Event) : e.2.size - 16 < 256 ^ 4 := by
  cases h : e.2.name with
  | none => simp [Event.size, h]
  | some n =>
      have hlen := n.property.2.2.2
      rw [size_sub_of_some h]
      omega

theorem length_nameField (e : UInt32 × Event) : (nameField e.2).length = e.2.size - 16 := by
  unfold nameField
  split
  next h => simp [Event.size, h]
  next n h =>
    rw [List.length_append, List.length_replicate, size_sub_of_some h]
    omega

theorem le_size (e : Event) : 16 ≤ e.size := by
  unfold Event.size
  omega

theorem length_wire (e : UInt32 × Event) : (wire e).length = e.2.size := by
  have hsize := le_size e.2
  simp only [wire, List.length_append, length_encode, length_nameField]
  omega

/-- A field of four bytes behind `o` others. -/
theorem fieldAt_of_drop {buf rest : List UInt8} {p o x : ℕ} (front : List UInt8) (hx : x < 256 ^ 4)
    (hfront : front.length = o) (h : buf.drop p = front ++ (encode 4 x ++ rest)) :
    fieldAt buf p o = x := by
  have hdrop : buf.drop (p + o) = encode 4 x ++ rest := by
    rw [← List.drop_drop, h, ← hfront, List.drop_left]
  have htake : (encode 4 x ++ rest).take 4 = encode 4 x := by
    rw [List.take_append_of_le_length (by simp), List.take_of_length_le (by simp)]
  rw [fieldAt, hdrop, htake, decode_encode_of_lt hx]

/-- What the loop reads from an event in the buffer. -/
structure EventAt (buf : List UInt8) (p : ℕ) (e : Event) : Prop where
  wd : wdAt buf p = e.wd
  mask : maskAt buf p = e.mask
  len : lenAt buf p = e.size - 16
  name : ∀ n, e.name = some n → nameAt buf p = n.val

theorem eventAt_of_drop {buf rest : List UInt8} {p : ℕ} (hwd : e.2.wd < 2 ^ 32)
    (h : buf.drop p = wire e ++ rest) : EventAt buf p e.2 := by
  simp only [wire, List.append_assoc] at h
  have hmask : fieldAt buf p 4 = e.2.mask.toNat :=
    fieldAt_of_drop (encode 4 e.2.wd) e.2.mask.toNat_lt (by simp) h
  have hfront : buf.drop p = (encode 4 e.2.wd ++ (encode 4 e.2.mask.toNat ++ encode 4 e.1.toNat)) ++
      (encode 4 (e.2.size - 16) ++ (nameField e.2 ++ rest)) := by
    simp only [h, List.append_assoc]
  have hlen : fieldAt buf p 12 = e.2.size - 16 :=
    fieldAt_of_drop _ (size_sub_lt e) (by simp) hfront
  refine ⟨fieldAt_of_drop [] hwd rfl h, ?_, hlen, fun n hn => ?_⟩
  · rw [maskAt, hmask, UInt32.ofNat_toNat]
  · have hdrop : buf.drop (p + 16) = nameField e.2 ++ rest := by
      rw [← List.drop_drop, h]
      simp only [← List.append_assoc]
      rw [List.append_assoc _ (nameField e.2), List.drop_left' (by simp)]
    have hzeros : ∃ k, e.2.size - 16 - n.val.length = k + 1 := by
      rw [size_sub_of_some hn]
      exact ⟨(n.val.length / 16 + 1) * 16 - n.val.length - 1, by omega⟩
    obtain ⟨k, hk⟩ := hzeros
    have hfield : nameField e.2 = n.val ++ 0 :: List.replicate k 0 := by
      simp [nameField, hn, hk, List.replicate_succ]
    rw [nameAt, hdrop, hfield, List.append_assoc, List.cons_append, cString_append_zero,
      cString_eq_self n.property.2.2.1]

/-- The loop goes on behind the bytes of the event. -/
theorem EventAt.step_eq {buf : List UInt8} {p : ℕ} {e : Event} (h : EventAt buf p e) :
    16 + lenAt buf p = e.size := by
  have hsize := le_size e
  rw [h.len]
  omega

/-- An event in the buffer is handled like the event itself. -/
theorem EventAt.handleAt_eq {buf : List UInt8} {p : ℕ} {e : Event} (h : EventAt buf p e)
    (root : List UInt8) (s : State) : handleAt root buf p s = handleEvent root e s := by
  unfold handleAt handleEvent Event.createsDir
  rw [h.mask, h.wd, h.len]
  cases hname : e.name with
  | none => simp [Event.size, hname]
  | some n =>
      have hpos : e.size - 16 ≠ 0 := by simp [Event.size, hname]
      simp only [if_neg hpos, h.name n hname, tmpStr]
      rfl

end Format

section Loop

variable {root : List UInt8} {tree : DirTree Name} {ok : Op → State → Prop}

/-- Handling an event does not depend on the events behind it. -/
theorem handleEvent_buf (root : List UInt8) (e : Event) (s : State) (es : List Event) :
    handleEvent root e { s with buf := es } = { handleEvent root e s with buf := es } := by
  have hwatch : ∀ path : List UInt8, watchDir root path { s with buf := es } =
      { watchDir root path s with buf := es } := by
    intro path
    unfold watchDir inotifyAddWatch
    cases (resolve root path).bind s.tree.find with
    | none => dsimp only; unfold recordWatch; split_ifs <;> rfl
    | some d =>
        dsimp only
        cases s.watch d.ino <;> dsimp only <;> unfold recordWatch <;> split_ifs <;> rfl
  unfold handleEvent
  by_cases hcreates : e.createsDir
  · rw [if_pos hcreates, if_pos hcreates]
    cases e.name with
    | none => rfl
    | some n =>
        have htmp : tmpStr { s with buf := es } e.wd n = tmpStr s e.wd n := rfl
        by_cases hindex : maxWatches ≤ e.wd
        · simp only [if_pos hindex]
        by_cases hlong : tmpSize ≤ (tmpStr s e.wd n).length
        · simp only [if_neg hindex, htmp, if_pos hlong]
        · simp only [if_neg hindex, htmp, if_neg hlong]
          exact hwatch _
  · rw [if_neg hcreates, if_neg hcreates]

/-- The first event of the buffer, handled as a step of the queue. -/
theorem step_handle_cons {s : State} (hs : s.stopped = none) (root : List UInt8) (e : Event)
    (es : List Event) :
    step root .handle { s with buf := e :: es } =
      some (if (handleEvent root e s).stopped = none then { handleEvent root e s with buf := es }
        else { handleEvent root e s with buf := e :: es }) := by
  simp only [step, if_pos hs, handleEvent_buf]

/-- The walk over a batch is as many steps of the queue as there are events before the monitor
stops. -/
theorem exists_watchLoop {buf stale : List UInt8} {events : List (UInt32 × Event)}
    (hwd : ∀ e ∈ events, e.2.wd < 2 ^ 32) {p : ℕ} {s : State}
    (hbuf : buf.drop p = events.flatMap wire ++ stale) (hs : s.stopped = none) :
    ∃ t rest,
      watchLoop root buf (p + (events.flatMap wire).length) (events.length + 1) p s = some t ∧
      Relation.ReflTransGen (fun u v => step root .handle u = some v)
        { s with buf := events.map Prod.snd } { t with buf := rest } ∧
      (t.stopped = none → rest = []) := by
  induction events generalizing p s with
  | nil => exact ⟨s, [], by simp [watchLoop], .refl, fun _ => rfl⟩
  | cons e events ih =>
      have hcons : buf.drop p = wire e ++ (events.flatMap wire ++ stale) := by
        rw [hbuf, List.flatMap_cons, List.append_assoc]
      have hat := eventAt_of_drop (hwd e (by simp)) hcons
      have hend : p + ((e :: events).flatMap wire).length =
          p + (16 + lenAt buf p) + (events.flatMap wire).length := by
        rw [List.flatMap_cons, List.length_append, length_wire, hat.step_eq, Nat.add_assoc]
      have hhandle := step_handle_cons hs root e.2 (events.map Prod.snd)
      rw [List.length_cons, watchLoop, if_pos (by omega), hat.handleAt_eq]
      by_cases hstop : (handleEvent root e.2 s).stopped = none
      · have hdrop : buf.drop (p + (16 + lenAt buf p)) = events.flatMap wire ++ stale := by
          rw [← List.drop_drop, hcons, hat.step_eq, ← length_wire, List.drop_left]
        obtain ⟨t, rest, hloop, hsteps, hrest⟩ :=
          ih (fun e' he' => hwd e' (by simp [he'])) hdrop hstop
        rw [if_pos hstop] at hhandle
        simp only [if_pos hstop, hend]
        exact ⟨t, rest, hloop, hsteps.head hhandle, hrest⟩
      · rw [if_neg hstop] at hhandle
        simp only [if_neg hstop]
        exact ⟨_, _, rfl, .single hhandle, fun hnone => absurd hnone hstop⟩

/-- The loop handles a batch in the buffer by the steps of the queue, one for each event, and
leaves off at its end unless the monitor stops. -/
theorem watchLoop_batch (hok : ∀ u, ok .handle u) {events : List (UInt32 × Event)}
    (hwd : ∀ e ∈ events, e.2.wd < 2 ^ 32) {s : State} (hs : s.stopped = none)
    (hbuf : s.buf = events.map Prod.snd) (h : (runs root tree ok).Reachable s)
    (stale : List UInt8) :
    ∃ t rest, watchLoop root (events.flatMap wire ++ stale) (events.flatMap wire).length
        (events.length + 1) 0 s = some t ∧
      Relation.ReflTransGen (fun u v => step root .handle u = some v) s { t with buf := rest } ∧
      (runs root tree ok).Reachable { t with buf := rest } ∧ (t.stopped = none → rest = []) := by
  have hdrop : (events.flatMap wire ++ stale).drop 0 = events.flatMap wire ++ stale := rfl
  obtain ⟨t, rest, hloop, hsteps, hend⟩ := @exists_watchLoop root _ _ _ hwd _ _ hdrop hs
  rw [Nat.zero_add] at hloop
  rw [← hbuf] at hsteps
  have hhandle : ∀ u v, step root .handle u = some v → (runs root tree ok).step u v :=
    fun u _ huv => ⟨.handle, hok u, huv⟩
  exact ⟨t, rest, hloop, hsteps, h.steps hhandle hsteps, hend⟩

/-- `mkdir a` and `mkdir b` in one batch, over the bytes of an older one. -/
theorem watchLoop_batch_two :
    ∃ s t rest, (runs [114] (.single Name) fun _ _ => True).Reachable s ∧ s.buf.length = 2 ∧
      watchLoop [114] ([(0, ⟨1, inCreate ||| inIsDir, some nameA⟩),
          (0, ⟨1, inCreate ||| inIsDir, some nameB⟩)].flatMap wire ++ [7, 7]) 64 3 0 s = some t ∧
      Relation.ReflTransGen (fun u v => step [114] .handle u = some v) s { t with buf := rest } ∧
      (runs [114] (.single Name) fun _ _ => True).Reachable { t with buf := rest } := by
  have hreach := System.reachable_of_scheduleWhen
    (System.Reachable.start (M := runs [114] (.single Name) fun _ _ => True) rfl)
    [.mkdir [] nameA, .mkdir [] nameB, .read 2] rfl
  have hwd : ∀ e ∈ ([(0, ⟨1, inCreate ||| inIsDir, some nameA⟩),
      (0, ⟨1, inCreate ||| inIsDir, some nameB⟩)] : List (UInt32 × Event)), e.2.wd < 2 ^ 32 := by
    decide
  obtain ⟨t, rest, hloop, hsteps, ht, -⟩ :=
    watchLoop_batch (fun _ => trivial) hwd rfl rfl hreach [7, 7]
  exact ⟨_, t, rest, hreach, rfl, hloop, hsteps, ht⟩

end Loop

end TlpiExercises.InotifyBuffer
