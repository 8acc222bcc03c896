import TlpiExercises.WatchRuns

/-!
# When the monitor keeps running

The monitor exits when the directory of a creation event is no longer at the path it
looks up, and it uses descriptors and a counter that only grow as indices. It keeps
running as long as no directory with a pending creation event is moved or removed,
the table is up to date where directories are made, and the tables have room.
-/
namespace TlpiExercises.WatchDirectoryTree
open PathName

variable {root path : List UInt8} {s s' : State}

/-- The length of the longest name for a path that the monitor builds. -/
def textLen (root : List UInt8) (p : List Name) : ℕ :=
  root.length + (p.map fun n => n.val.length + 1).sum

theorem textLen_append (root : List UInt8) (p : List Name) (n : Name) :
    textLen root (p ++ [n]) = textLen root p + 1 + n.val.length := by
  simp [textLen]
  omega

theorem length_join_le (str : List UInt8) (n : Name) :
    (join str n).length ≤ str.length + 1 + n.val.length := by
  rw [join]
  split_ifs
  · simp
  · simp
    omega

theorem length_fpath_le (root : List UInt8) (p : List Name) :
    (fpath root p).length ≤ textLen root p := by
  induction p using List.reverseRecOn with
  | nil => simp [fpath, textLen]
  | append_singleton p n ih =>
      have hjoin := length_join_le (fpath root p) n
      rw [textLen_append]
      simp only [fpath, List.foldl_append, List.foldl_cons, List.foldl_nil] at ih hjoin ⊢
      omega

/-- The number of pending creation events. -/
def State.creations (s : State) : ℕ := s.pending.countP Event.createsDir

/-- What the operations must respect. A directory is made in a watched directory only
under the path the table has for it, with a name that fits and while there is room for
its watch; a directory whose creation event is pending is neither removed nor moved. -/
def Respects (root : List UInt8) (op : Op) (s : State) : Prop :=
  match op with
  | .mkdir p n => ∀ d ∈ s.tree.dirs, d.path = p → ∀ wd ∈ s.watch d.ino,
      resolve root (s.paths wd) = some p ∧ textLen root (p ++ [n]) < pathSize ∧
        s.watchDescCnt + s.creations + 1 < maxWatches
  | .rmdir p => ∀ e ∈ s.pending, s.target root e ≠ some p
  | .rename src _ => ∀ e ∈ s.pending, ∀ p ∈ s.target root e, ¬ src <+: p
  | _ => True

instance (op : Op) (s : State) : Decidable (Respects root op s) :=
  match op with
  | .mkdir p n => inferInstanceAs (Decidable (∀ d ∈ s.tree.dirs, d.path = p → ∀ wd ∈ s.watch d.ino,
      resolve root (s.paths wd) = some p ∧ textLen root (p ++ [n]) < pathSize ∧
        s.watchDescCnt + s.creations + 1 < maxWatches))
  | .rmdir p => inferInstanceAs (Decidable (∀ e ∈ s.pending, s.target root e ≠ some p))
  | .rename src _ =>
      inferInstanceAs (Decidable (∀ e ∈ s.pending, ∀ p ∈ s.target root e, ¬ src <+: p))
  | .other _ | .read _ | .handle => inferInstanceAs (Decidable True)

/-- A pending creation event whose directory is where the monitor will look for it. -/
structure Findable (root : List UInt8) (s : State) (e : Event) : Prop where
  reports : ∃ q n, e.Reports root s q n ∧ s.tree.Exists (q ++ [n]) ∧
    textLen root (q ++ [n]) < pathSize
  current : ∀ d ∈ s.tree.dirs, s.watch d.ino = some e.wd →
    resolve root (s.paths e.wd) = some d.path

/-- The invariant of the runs in which every step is respectful. -/
structure Healthy (root : List UInt8) (s : State) : Prop where
  running : s.stopped = none
  wf : Wf s
  next_le : s.nextWd ≤ s.watchDescCnt + 1
  room : s.watchDescCnt + s.creations < maxWatches
  short : ∀ wd p, resolve root (s.paths wd) = some p → (s.paths wd).length ≤ textLen root p
  findable : ∀ e ∈ s.pending, e.createsDir → Findable root s e

/-- A change of the tree that leaves the directory of the event and its parent. -/
theorem Findable.change {e : Event} {t : DirTree Name} {gone : Option (Dir Name)}
    {events : List Event} (hf : Findable root s e)
    (hexists : ∀ p ∈ s.target root e, s.tree.Exists p → t.Exists p)
    (hsame : ∀ d ∈ t.dirs, s.watch d.ino = some e.wd → d ∈ s.tree.dirs) :
    Findable root (s.change t gone events) e where
  reports := by
    obtain ⟨q, n, hrep, hex, hlen⟩ := hf.reports
    exact ⟨q, n, hrep, hexists _ hrep.target hex, hlen⟩
  current d hd hwd := by
    obtain ⟨-, hwd⟩ := change_watch hwd
    exact hf.current d (hsame d hd hwd) hwd

theorem creations_change (s : State) (t : DirTree Name) (gone : Option (Dir Name))
    (events : List Event) :
    (s.change t gone events).creations = s.creations + events.countP Event.createsDir := by
  rw [State.creations, change_pending, List.countP_append, State.creations]

theorem Silent.countP_eq {events : List Event} (h : Silent s events) :
    events.countP Event.createsDir = 0 := by
  rw [List.countP_eq_zero]
  intro e he
  simp [(h e he).1]

theorem Healthy.change {t : DirTree Name} {gone : Option (Dir Name)} {events : List Event}
    (h : Healthy root s) (hwf : Wf (s.change t gone events))
    (hroom : s.watchDescCnt + (s.creations + events.countP Event.createsDir) < maxWatches)
    (hold : ∀ e ∈ s.pending, e.createsDir → Findable root (s.change t gone events) e)
    (hnew : ∀ e ∈ events, e.createsDir → Findable root (s.change t gone events) e) :
    Healthy root (s.change t gone events) where
  running := h.running
  wf := hwf
  next_le := h.next_le
  room := by
    rw [creations_change]
    exact hroom
  short := h.short
  findable e he hcreates := by
    rw [change_pending] at he
    rcases List.mem_append.mp he with he | he
    · exact hold e he hcreates
    · exact hnew e he hcreates

/-- A change whose events are not about new directories. -/
theorem Healthy.silent {t : DirTree Name} {gone : Option (Dir Name)} {events : List Event}
    (h : Healthy root s) (hwf : Wf (s.change t gone events)) (hsilent : Silent s events)
    (hold : ∀ e ∈ s.pending, e.createsDir → Findable root (s.change t gone events) e) :
    Healthy root (s.change t gone events) := by
  refine h.change hwf ?_ hold ?_
  · rw [hsilent.countP_eq]
    exact h.room
  · intro e he hcreates
    rw [(hsilent e he).1] at hcreates
    contradiction

section Steps

variable {p src dst : List Name} {n : Name}

theorem Healthy.mkdir (h : Healthy root s) (hok : Respects root (.mkdir p n) s)
    (hmk : s.mkdir p n = some s') (hwf : Wf s') : Healthy root s' := by
  obtain ⟨t, c, hc, rfl, -, hdirs, rfl⟩ := mkdir_cases hmk
  have hnone := h.wf.watch_new
  have hsame : ∀ wd, ∀ d ∈ t.dirs, s.watch d.ino = some wd → d ∈ s.tree.dirs := by
    intro wd d hd hwd
    rcases List.mem_append.mp (hdirs ▸ hd : d ∈ _ ++ _) with hd | hd
    · exact hd
    · rw [List.mem_singleton.mp hd, hnone] at hwd
      contradiction
  have hexists : ∀ q, s.tree.Exists q → t.Exists q := by
    rintro q ⟨d, hd, hpath⟩
    exact ⟨d, by rw [hdirs]; exact List.mem_append_left _ hd, hpath⟩
  have hold : ∀ events, ∀ e ∈ s.pending, e.createsDir → Findable root (s.change t none events) e :=
    fun events e he hcreates =>
      (h.findable e he hcreates).change (fun q _ => hexists q) (hsame e.wd)
  cases hwd : s.watch c.ino with
  | none =>
      have hquiet : s.notify (some c) (inCreate ||| inIsDir) (some n) = [] := by
        simp [State.notify, hwd]
      rw [hquiet] at hwf ⊢
      exact h.silent hwf (by simp [Silent]) (hold [])
  | some wd =>
      obtain ⟨hres, hlen, hroom⟩ := hok c hc rfl wd hwd
      have hevent : s.notify (some c) (inCreate ||| inIsDir) (some n) =
          [⟨wd, inCreate ||| inIsDir, some n⟩] := by
        simp [State.notify, hwd]
      rw [hevent] at hwf ⊢
      refine h.change hwf ?_ (hold _) ?_
      · rw [List.countP_singleton, if_pos (createsDir_new wd _)]
        omega
      · intro e he hcreates
        obtain rfl := List.mem_singleton.mp he
        refine ⟨⟨c.path, n, ⟨hcreates, rfl, hres⟩, ?_, hlen⟩, ?_⟩
        · refine ⟨⟨s.tree.nextIno, c.path ++ [n]⟩, ?_, rfl⟩
          show _ ∈ t.dirs
          rw [hdirs]
          simp
        · intro d hd hw
          obtain ⟨-, hw⟩ := change_watch hw
          have hino := h.wf.watch_inj d.ino c.ino wd hw hwd
          rw [s.tree.ino_inj d (hsame wd d hd hw) c hc hino]
          exact hres

theorem Healthy.rmdir (h : Healthy root s) (hok : Respects root (.rmdir p) s)
    (hrm : s.rmdir p = some s') (hwf : Wf s') : Healthy root s' := by
  obtain ⟨t, d, events, hd, hpath, hdirs, hsilent, rfl⟩ := rmdir_cases hrm
  refine h.silent hwf hsilent ?_
  intro e he hcreates
  refine (h.findable e he hcreates).change ?_ ?_
  · rintro q hq ⟨c, hc, hcq⟩
    refine ⟨c, ?_, hcq⟩
    rw [hdirs, List.mem_filter, decide_eq_true_eq, hcq]
    refine ⟨hc, ?_⟩
    rintro rfl
    exact hok e he hq
  · intro c hc _
    exact List.mem_of_mem_filter (hdirs ▸ hc)

theorem Healthy.rename (h : Healthy root s) (hok : Respects root (.rename src dst) s)
    (hmv : s.rename src dst = some s') (hwf : Wf s') : Healthy root s' := by
  obtain ⟨t, events, hren, hdirs, hsilent, rfl⟩ := rename_cases hmv
  refine h.silent hwf hsilent ?_
  intro e he hcreates
  have hf := h.findable e he hcreates
  obtain ⟨q, n, hrep, -, -⟩ := hf.reports
  have hout := hok e he (q ++ [n]) hrep.target
  refine hf.change ?_ ?_
  · rintro r hr ⟨d, hd, rfl⟩
    obtain hpath := Option.some.inj (hrep.target.symm.trans hr)
    rw [hpath] at hout
    by_cases hdst : d.path = dst
    · -- the directory at `dst` is replaced by the one that moves there
      obtain ⟨-, ⟨c, hc, hcsrc⟩, hnot, -⟩ := hren
      refine ⟨⟨c.ino, DirTree.move src dst c.path⟩, ?_, ?_⟩
      · rw [hdirs]
        refine DirTree.mem_renamed.mpr ⟨c, hc, ?_, rfl⟩
        rintro rfl
        exact hnot (by rw [hcsrc])
      · have hmove := DirTree.move_append src dst []
        rw [List.append_nil, List.append_nil] at hmove
        simp only [hcsrc, hmove, hdst]
    · refine ⟨⟨d.ino, DirTree.move src dst d.path⟩, ?_, DirTree.move_of_not hout dst⟩
      rw [hdirs]
      exact DirTree.mem_renamed.mpr ⟨d, hd, hdst, rfl⟩
  · intro c hc hwd
    obtain ⟨d, hd, -, rfl⟩ := DirTree.mem_renamed.mp (hdirs ▸ hc)
    have hq : q = d.path := Option.some.inj (hrep.2.2.symm.trans (hf.current d hd hwd))
    have hnot : ¬ src <+: d.path := fun hpre => hout (by
      rw [hq]
      exact hpre.trans (List.prefix_append _ _))
    rw [DirTree.move_of_not hnot]
    exact hd

theorem Healthy.other {e : Event} (h : Healthy root s) (hop : step root (.other e) s = some s')
    (hwf : Wf s') : Healthy root s' := by
  obtain ⟨hsilent, rfl⟩ := other_cases hop
  refine h.silent hwf hsilent ?_
  intro e he hcreates
  exact (h.findable e he hcreates).change (fun _ _ hex => hex) (fun _ hd _ => hd)

theorem Healthy.read {k : ℕ} (h : Healthy root s) (hop : step root (.read k) s = some s')
    (hwf : Wf s') : Healthy root s' := by
  obtain ⟨rfl, hpending⟩ := read_cases hop
  refine ⟨h.running, hwf, h.next_le, ?_, h.short, ?_⟩
  · rw [State.creations, hpending]
    exact h.room
  · intro e he hcreates
    rw [hpending] at he
    have hf := h.findable e he hcreates
    exact ⟨hf.reports, hf.current⟩

/-- The state in which the next event has been taken off the buffer. -/
theorem Healthy.pop {i : Event} {rest : List Event} (h : Healthy root s)
    (hbuf : s.buf = i :: rest) : Healthy root { s with buf := rest } := by
  have hpending : s.pending = i :: State.pending { s with buf := rest } := by
    simp [State.pending, hbuf]
  refine ⟨h.running, ?_, h.next_le, ?_, h.short, ?_⟩
  · refine h.wf.of_pending rest s.queue (fun e he => ?_)
    rw [hpending]
    exact List.mem_cons_of_mem _ he
  · have hroom := h.room
    rw [State.creations, hpending, List.countP_cons] at hroom
    exact lt_of_le_of_lt (by simp [State.creations]) hroom
  · intro e he hcreates
    have hf := h.findable e (by rw [hpending]; exact List.mem_cons_of_mem _ he) hcreates
    exact ⟨hf.reports, hf.current⟩

end Steps

/-- One more watch, while there is room for it. -/
theorem Healthy.watched {d : Dir Name} {wd : ℕ} (h : Healthy root s)
    (hw : Watched root path s s' d wd) (hrun : s'.stopped = none)
    (hlen : path.length ≤ textLen root d.path)
    (hroom : s.watchDescCnt + s.creations + 1 < maxWatches) : Healthy root s' where
  running := hrun
  wf := h.wf.watched hw
  next_le := by
    have hnext := h.next_le
    rw [hw.count_eq]
    rcases hw.descriptor with ⟨-, heq⟩ | ⟨-, -, heq⟩ <;> omega
  room := by
    rw [hw.count_eq, State.creations, hw.pending_eq]
    rw [State.creations] at hroom
    omega
  short w p hp := by
    rw [hw.paths_eq] at hp ⊢
    by_cases hwd : w = wd
    · rw [hwd, Function.update_self] at hp ⊢
      rw [hw.resolved, Option.some.injEq] at hp
      rwa [← hp]
    · rw [Function.update_of_ne hwd] at hp ⊢
      exact h.short w p hp
  findable e he hcreates := by
    rw [hw.pending_eq] at he
    have hf := h.findable e he hcreates
    refine ⟨?_, ?_⟩
    · obtain ⟨q, n, hrep, hex, hle⟩ := hf.reports
      rw [hw.tree_eq]
      exact ⟨q, n, hw.reports (h.wf.pending_lt e he) (hf.current d hw.mem) hrep, hex, hle⟩
    · intro c hc hwatch
      rw [hw.tree_eq] at hc
      rw [hw.paths_eq]
      rcases hw.watch_cases hwatch with ⟨hino, hwd⟩ | ⟨hne, hwatch⟩
      · rw [hwd, Function.update_self, hw.resolved, s.tree.ino_inj c hc d hw.mem hino]
      · rw [Function.update_of_ne (hw.ne_of_watch h.wf hne hwatch)]
        exact hf.current c hc hwatch

/-- The monitor gets through the next event. -/
theorem Healthy.handleEvent_stopped {i : Event} (h : Healthy root s) (hi : i ∈ s.pending) :
    (handleEvent root i s).stopped = none := by
  by_cases hcreates : i.createsDir
  · obtain ⟨q, n, hrep, ⟨d, hd, hpath⟩, hlen⟩ := (h.findable i hi hcreates).reports
    have htmp : (tmpStr s i.wd n).length < pathSize := by
      have hshort := h.short i.wd q hrep.2.2
      rw [textLen_append] at hlen
      simp only [tmpStr, List.length_append, List.length_cons]
      omega
    have hcount : 0 < s.creations := List.countP_pos_iff.mpr ⟨i, hi, hcreates⟩
    have hnext : s.nextWd < maxWatches := by
      have hle := h.next_le
      have hroom := h.room
      omega
    have hwd := h.wf.pending_lt i hi
    simp only [handleEvent, if_pos hcreates, hrep.2.1]
    rw [if_neg (by omega), if_neg (by simp only [tmpSize, pathSize] at htmp ⊢; omega)]
    refine watchDir_stopped h.running hd ?_ ?_ hnext ?_ htmp
    · rw [tmpStr, resolve_append hrep.2.2, hpath]
    · have hroom := h.room
      omega
    · intro wd hwatch
      exact (h.wf.watch_lt d.ino wd hwatch).trans hnext
  · rw [handleEvent, if_neg hcreates]
    exact h.running

theorem Healthy.handle (h : Healthy root s) (hop : step root .handle s = some s') :
    Healthy root s' := by
  have hs' : s'.stopped = none := by
    simp only [step, Option.ite_none_right_eq_some] at hop
    obtain ⟨-, hop⟩ := hop
    rcases hbuf : s.buf with _ | ⟨i, rest⟩ <;> rw [hbuf] at hop
    · contradiction
    · have hrun := h.handleEvent_stopped (i := i) (by simp [State.pending, hbuf])
      obtain rfl := Option.some.inj hop
      rw [if_pos hrun]
      exact hrun
  obtain ⟨i, rest, hbuf, ⟨-, rfl⟩ | ⟨hcreates, name, s₁, d, wd, hname, hw, rfl⟩⟩ :=
    handle_cases hop hs'
  · exact h.pop hbuf
  · have hi : i ∈ s.pending := by simp [State.pending, hbuf]
    obtain ⟨q, n, hrep, -, -⟩ := (h.findable i hi hcreates).reports
    obtain rfl : name = n := Option.some.inj (hname.symm.trans hrep.2.1)
    have hpath : d.path = q ++ [name] := by
      rw [← Option.some.injEq, ← hw.resolved, tmpStr, resolve_append hrep.2.2]
    have hw' : Watched root (tmpStr s i.wd name) { s with buf := rest } { s₁ with buf := rest } d wd :=
      ⟨hw.mem, hw.resolved, hw.tree_eq, hw.queue_eq, rfl, hw.watch_eq, hw.paths_eq, hw.count_eq,
        hw.descriptor⟩
    refine (h.pop hbuf).watched hw' hs' ?_ ?_
    · have hshort := h.short i.wd q hrep.2.2
      rw [hpath, textLen_append, tmpStr, List.length_append, List.length_cons]
      omega
    · have hroom := h.room
      have hpending : s.creations = State.creations { s with buf := rest } + 1 := by
        simp [State.creations, State.pending, hbuf, hcreates]
      show s.watchDescCnt + _ + 1 < maxWatches
      omega

/-- Every step that respects the conditions leaves the monitor running. -/
theorem Healthy.step {op : Op} (h : Healthy root s) (hok : Respects root op s)
    (hop : step root op s = some s') : Healthy root s' := by
  cases op with
  | mkdir p n =>
      refine h.mkdir hok hop (h.wf.step hop ?_)
      obtain ⟨t, c, -, -, -, -, rfl⟩ := mkdir_cases hop
      exact h.running
  | rmdir p =>
      refine h.rmdir hok hop (h.wf.step hop ?_)
      obtain ⟨t, d, events, -, -, -, -, rfl⟩ := rmdir_cases hop
      exact h.running
  | rename src dst =>
      refine h.rename hok hop (h.wf.step hop ?_)
      obtain ⟨t, events, -, -, -, rfl⟩ := rename_cases hop
      exact h.running
  | other e =>
      refine h.other hop (h.wf.step hop ?_)
      obtain ⟨-, rfl⟩ := other_cases hop
      exact h.running
  | read k =>
      refine h.read hop (h.wf.step hop ?_)
      obtain ⟨rfl, -⟩ := read_cases hop
      exact h.running
  | handle => exact h.handle hop

/-- The trees `nftw` can put under watch. -/
def Fits (root : List UInt8) (tree : DirTree Name) : Prop :=
  tree.dirs.length < maxWatches ∧ ∀ d ∈ tree.dirs, (fpath root d.path).length < pathSize

theorem Healthy.nftw {ds : List (Dir Name)} (h : Healthy root s)
    (hds : ∀ d ∈ ds, d ∈ s.tree.dirs ∧ (fpath root d.path).length < pathSize)
    (hroom : s.watchDescCnt + s.creations + ds.length < maxWatches) :
    Healthy root (nftw root ds s) := by
  induction ds generalizing s with
  | nil => exact h
  | cons d ds ih =>
      rw [List.length_cons] at hroom
      obtain ⟨hd, hlen⟩ := hds d (by simp)
      have hnext : s.nextWd < maxWatches := by
        have hle := h.next_le
        omega
      have hrun : (watchDir root (fpath root d.path) s).stopped = none := by
        refine watchDir_stopped h.running hd (resolve_fpath root d.path) (by omega) hnext ?_ hlen
        intro wd hwatch
        exact (h.wf.watch_lt d.ino wd hwatch).trans hnext
      obtain ⟨wd, hw⟩ := watched_of_fpath hd hrun
      rw [nftw_cons h.running]
      refine ih (h.watched hw hrun (length_fpath_le root d.path) (by omega)) ?_ ?_
      · rw [hw.tree_eq]
        exact fun e he => hds e (by simp [he])
      · rw [hw.count_eq, State.creations, hw.pending_eq]
        rw [State.creations] at hroom
        omega

theorem healthy_start {tree : DirTree Name} (h : Fits root tree) : Healthy root (start root tree) := by
  refine Healthy.nftw ?_ (fun d hd => ⟨hd, h.2 d hd⟩) ?_
  · refine ⟨rfl, wf_initial tree, le_rfl, ?_, ?_, ?_⟩
    · show 0 < maxWatches
      decide
    · intro wd p _
      exact Nat.zero_le _
    · intro e he
      contradiction
  · have hlen := h.1
    simpa [State.initial, State.creations, State.pending] using hlen

/-- In a run of respectful operations the monitor never exits and never uses an index
outside its tables. -/
theorem monitor_keeps_running {tree : DirTree Name} (hfits : Fits root tree)
    (h : (runs root tree (Respects root)).Reachable s) : s.stopped = none := by
  have hinv : Healthy root s := by
    refine System.invariant_of_nextWhen (Healthy root) (healthy_start hfits) ?_ h
    exact fun op s s' hinv hok hop => hinv.step hok hop
  exact hinv.running

/-- `mkdir a`, `mkdir a/b`, the handling of both, and the removal of `a/b`. -/
theorem monitor_keeps_running_removed :
    ∃ s, (runs [114] (.single Name) (Respects [114])).Reachable s ∧ s.pending.length = 3 ∧
      s.stopped = none := by
  have hreach := System.reachable_of_scheduleWhen
    (System.Reachable.start (M := runs [114] (.single Name) (Respects [114])) rfl)
    [.mkdir [] nameA, .read 1, .handle, .mkdir [nameA] nameB, .read 1, .handle,
      .rmdir [nameA, nameB]] rfl
  exact ⟨_, hreach, rfl,
    monitor_keeps_running ⟨by decide, by decide⟩ hreach⟩

/-- `mkdir a` and `rmdir a` before the event is handled: the monitor exits. -/
theorem monitor_exits :
    ¬ ∀ s, (runs [114] (.single Name) fun _ _ => True).Reachable s →
      s.stopped ≠ some .addWatchFailed ∧ s.stopped ≠ some .index := by
  intro hall
  have hreach := System.reachable_of_scheduleWhen
    (System.Reachable.start (M := runs [114] (.single Name) fun _ _ => True) rfl)
    [.mkdir [] nameA, .rmdir [nameA], .read 2, .handle] rfl
  exact (hall _ hreach).1 rfl

end TlpiExercises.WatchDirectoryTree
