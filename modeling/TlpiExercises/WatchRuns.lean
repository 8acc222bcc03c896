import TlpiExercises.WatchDirectoryTree

/-!
# Which directories the monitor watches, and under which path

A directory made inside a watched directory is reported and then watched; one made
before the watch on its parent is never reported. The table `paths` is filled when
a watch is added and is not touched by a rename. The invariants below say what
holds in the runs that avoid each of these.
-/
namespace TlpiExercises.WatchDirectoryTree
open PathName

variable {root path : List UInt8} {s s' : State}

/-- What a `watchDir` that returned has done. -/
structure Watched (root path : List UInt8) (s s' : State) (d : Dir Name) (wd : ℕ) : Prop where
  mem : d ∈ s.tree.dirs
  resolved : resolve root path = some d.path
  tree_eq : s'.tree = s.tree
  queue_eq : s'.queue = s.queue
  buf_eq : s'.buf = s.buf
  watch_eq : s'.watch = Function.update s.watch d.ino (some wd)
  paths_eq : s'.paths = Function.update s.paths wd path
  count_eq : s'.watchDescCnt = s.watchDescCnt + 1
  descriptor : (s.watch d.ino = some wd ∧ s'.nextWd = s.nextWd) ∨
    (s.watch d.ino = none ∧ wd = s.nextWd ∧ s'.nextWd = s.nextWd + 1)

/-- `inotify_add_watch` fails, or returns the descriptor of the directory at `path`. -/
theorem inotifyAddWatch_cases (root path : List UInt8) (s : State) :
    ((resolve root path).bind s.tree.find = none ∧ inotifyAddWatch root path s = (-1, s)) ∨
      ∃ d ∈ s.tree.dirs, resolve root path = some d.path ∧ ∃ wd : ℕ,
        ((s.watch d.ino = some wd ∧ inotifyAddWatch root path s = ((wd : ℤ), s)) ∨
        (s.watch d.ino = none ∧ wd = s.nextWd ∧ inotifyAddWatch root path s = ((wd : ℤ),
          { s with watch := Function.update s.watch d.ino (some wd), nextWd := s.nextWd + 1 }))) := by
  cases hfind : (resolve root path).bind s.tree.find with
  | none => exact .inl ⟨rfl, by simp only [inotifyAddWatch, hfind]⟩
  | some d =>
      obtain ⟨p, hp, hd⟩ := Option.bind_eq_some_iff.mp hfind
      obtain ⟨hmem, rfl⟩ := DirTree.find_eq_some.mp hd
      refine .inr ⟨d, hmem, hp, ?_⟩
      cases hwatch : s.watch d.ino with
      | some wd => exact ⟨wd, .inl ⟨rfl, by simp only [inotifyAddWatch, hfind, hwatch]⟩⟩
      | none => exact ⟨s.nextWd, .inr ⟨rfl, rfl, by simp only [inotifyAddWatch, hfind, hwatch]⟩⟩

theorem recordWatch_running {wd : ℤ} (h : (recordWatch path wd s).stopped = none) :
    0 ≤ wd ∧ recordWatch path wd s = { s with
      paths := Function.update s.paths wd.toNat path
      watchDesc := Function.update s.watchDesc s.watchDescCnt wd
      watchDescCnt := s.watchDescCnt + 1 } := by
  unfold recordWatch at h ⊢
  split_ifs at h ⊢ with h₁ h₂ h₃ h₄
  exact ⟨by omega, rfl⟩

theorem recordWatch_stopped {wd : ℤ} (hs : s.stopped = none) (hcnt : s.watchDescCnt < maxWatches)
    (hwd : 0 ≤ wd) (hlt : wd.toNat < maxWatches) (hlen : path.length < pathSize) :
    (recordWatch path wd s).stopped = none := by
  rw [recordWatch, if_neg (not_le.mpr hcnt), if_neg (not_lt.mpr hwd), if_neg (not_le.mpr hlt),
    if_neg (not_le.mpr hlen)]
  exact hs

/-- A `watchDir` that returns has put the directory at `path` under watch. -/
theorem watchDir_running (h : (watchDir root path s).stopped = none) :
    ∃ d wd, Watched root path s (watchDir root path s) d wd := by
  simp only [watchDir] at h ⊢
  obtain ⟨hpos, hrecord⟩ := recordWatch_running h
  rw [hrecord]
  rcases inotifyAddWatch_cases root path s with ⟨-, hadd⟩ | ⟨d, hd, hres, wd, hwd⟩
  · rw [hadd] at hpos
    contradiction
  · refine ⟨d, wd, ?_⟩
    rcases hwd with ⟨hwatch, hadd⟩ | ⟨hwatch, rfl, hadd⟩
    · rw [hadd]
      exact ⟨hd, hres, rfl, rfl, rfl, (Function.update_eq_self_iff.mpr hwatch.symm).symm, rfl, rfl,
        .inl ⟨hwatch, rfl⟩⟩
    · rw [hadd]
      exact ⟨hd, hres, rfl, rfl, rfl, rfl, rfl, rfl, .inr ⟨hwatch, rfl, rfl⟩⟩

/-- `watchDir` on an existing directory returns while the tables have room. -/
theorem watchDir_stopped {d : Dir Name} (hs : s.stopped = none) (hd : d ∈ s.tree.dirs)
    (hres : resolve root path = some d.path) (hcnt : s.watchDescCnt < maxWatches)
    (hnext : s.nextWd < maxWatches) (hwatch : ∀ wd, s.watch d.ino = some wd → wd < maxWatches)
    (hlen : path.length < pathSize) : (watchDir root path s).stopped = none := by
  rcases inotifyAddWatch_cases root path s with ⟨hnone, -⟩ | ⟨e, he, hres', wd, hwd⟩
  · rw [hres, Option.bind_some, DirTree.find_eq_some.mpr ⟨hd, rfl⟩] at hnone
    contradiction
  · obtain rfl : d = e := by
      rw [hres, Option.some.injEq] at hres'
      exact s.tree.path_inj d hd e he hres'
    rcases hwd with ⟨hw, hadd⟩ | ⟨hw, rfl, hadd⟩
    · simp only [watchDir, hadd]
      exact recordWatch_stopped hs hcnt (by omega) (by simpa using hwatch wd hw) hlen
    · simp only [watchDir, hadd]
      exact recordWatch_stopped hs hcnt (by omega) (by simpa using hnext) hlen

/-- The kernel's side: watches are on existing directories, no two directories share a
descriptor, and the next descriptor is new to every watch and event. -/
structure Wf (s : State) : Prop where
  watch_mem : ∀ i wd, s.watch i = some wd → ∃ d ∈ s.tree.dirs, d.ino = i
  watch_lt : ∀ i wd, s.watch i = some wd → wd < s.nextWd
  watch_inj : ∀ i j wd, s.watch i = some wd → s.watch j = some wd → i = j
  pending_lt : ∀ e ∈ s.pending, e.wd < s.nextWd

theorem wf_initial (tree : DirTree Name) : Wf (.initial tree) := by
  constructor <;> simp [State.initial, State.pending]

theorem Watched.pending_eq {d : Dir Name} {wd : ℕ} (h : Watched root path s s' d wd) :
    s'.pending = s.pending := by
  rw [State.pending, h.buf_eq, h.queue_eq, State.pending]

theorem Watched.nextWd_le {d : Dir Name} {wd : ℕ} (h : Watched root path s s' d wd) :
    s.nextWd ≤ s'.nextWd := by
  rcases h.descriptor with ⟨-, hnext⟩ | ⟨-, -, hnext⟩ <;> omega

/-- A directory with the descriptor `wd` was just put under watch, or had it before. -/
theorem Watched.watch_cases {d : Dir Name} {wd i w : ℕ} (h : Watched root path s s' d wd)
    (hi : s'.watch i = some w) : (i = d.ino ∧ w = wd) ∨ (i ≠ d.ino ∧ s.watch i = some w) := by
  rw [h.watch_eq] at hi
  by_cases hid : i = d.ino
  · rw [hid, Function.update_self, Option.some.injEq] at hi
    exact .inl ⟨hid, hi.symm⟩
  · rw [Function.update_of_ne hid] at hi
    exact .inr ⟨hid, hi⟩

/-- Another directory does not have the descriptor that was just used. -/
theorem Watched.ne_of_watch {d : Dir Name} {wd i w : ℕ} (h : Watched root path s s' d wd)
    (hs : Wf s) (hid : i ≠ d.ino) (hi : s.watch i = some w) : w ≠ wd := by
  rintro rfl
  rcases h.descriptor with ⟨hd, -⟩ | ⟨-, rfl, -⟩
  · exact hid (hs.watch_inj i d.ino w hi hd)
  · exact lt_irrefl _ (hs.watch_lt i s.nextWd hi)

theorem Wf.watched {d : Dir Name} {wd : ℕ} (hs : Wf s) (h : Watched root path s s' d wd) :
    Wf s' where
  watch_mem i w hi := by
    rw [h.tree_eq]
    rcases h.watch_cases hi with ⟨rfl, -⟩ | ⟨-, hi⟩
    · exact ⟨d, h.mem, rfl⟩
    · exact hs.watch_mem i w hi
  watch_lt i w hi := by
    rcases h.watch_cases hi with ⟨-, rfl⟩ | ⟨-, hi⟩
    · rcases h.descriptor with ⟨hd, hnext⟩ | ⟨-, rfl, hnext⟩
      · exact hnext ▸ hs.watch_lt d.ino w hd
      · omega
    · exact (hs.watch_lt i w hi).trans_le h.nextWd_le
  watch_inj i j w hi hj := by
    rcases h.watch_cases hi with ⟨rfl, rfl⟩ | ⟨hid, hi⟩ <;>
      rcases h.watch_cases hj with ⟨rfl, hw⟩ | ⟨hjd, hj⟩
    · rfl
    · exact absurd rfl (h.ne_of_watch hs hjd hj)
    · exact absurd hw (h.ne_of_watch hs hid hi)
    · exact hs.watch_inj i j w hi hj
  pending_lt e he := by
    rw [h.pending_eq] at he
    exact (hs.pending_lt e he).trans_le h.nextWd_le

/-- Handling or reading events leaves the kernel's side alone. -/
theorem Wf.of_pending (hs : Wf s) (buf queue : List Event)
    (hsub : ∀ e ∈ buf ++ queue, e ∈ s.pending) : Wf { s with buf := buf, queue := queue } :=
  ⟨hs.watch_mem, hs.watch_lt, hs.watch_inj, fun e he => hs.pending_lt e (hsub e he)⟩

/-- Every directory but the one that is gone is still in the tree. -/
def Keeps (s : State) (t : DirTree Name) (gone : Option (Dir Name)) : Prop :=
  ∀ d ∈ s.tree.dirs, gone.map Dir.ino ≠ some d.ino → ∃ e ∈ t.dirs, e.ino = d.ino

theorem change_watch {t : DirTree Name} {gone : Option (Dir Name)} {events : List Event} {i wd : ℕ}
    (h : (s.change t gone events).watch i = some wd) :
    gone.map Dir.ino ≠ some i ∧ s.watch i = some wd := by
  simp only [State.change, Option.ite_none_left_eq_some] at h
  exact h

@[simp] theorem change_pending (s : State) (t : DirTree Name) (gone : Option (Dir Name))
    (events : List Event) : (s.change t gone events).pending = s.pending ++ events := by
  simp [State.change, State.pending]

theorem Wf.change {t : DirTree Name} {gone : Option (Dir Name)} {events : List Event} (hs : Wf s)
    (hkeep : Keeps s t gone) (hevents : ∀ e ∈ events, ∃ i, s.watch i = some e.wd) :
    Wf (s.change t gone events) where
  watch_mem i wd hi := by
    obtain ⟨hgone, hi⟩ := change_watch hi
    obtain ⟨d, hd, rfl⟩ := hs.watch_mem i wd hi
    exact hkeep d hd hgone
  watch_lt i wd hi := hs.watch_lt i wd (change_watch hi).2
  watch_inj i j wd hi hj := hs.watch_inj i j wd (change_watch hi).2 (change_watch hj).2
  pending_lt e he := by
    rw [change_pending] at he
    rcases List.mem_append.mp he with he | he
    · exact hs.pending_lt e he
    · obtain ⟨i, hi⟩ := hevents e he
      exact hs.watch_lt i e.wd hi

theorem mem_notify {d : Option (Dir Name)} {mask : UInt32} {name : Option Name} {e : Event} :
    e ∈ s.notify d mask name ↔
      ∃ c ∈ d, s.watch c.ino = some e.wd ∧ e.mask = mask ∧ e.name = name := by
  simp only [State.notify, Option.mem_toList, Option.mem_def, Option.map_eq_some_iff,
    Option.bind_eq_some_iff]
  constructor
  · rintro ⟨wd, ⟨c, hc, hwd⟩, rfl⟩
    exact ⟨c, hc, hwd, rfl, rfl⟩
  · rintro ⟨c, hc, hwd, rfl, rfl⟩
    exact ⟨e.wd, ⟨c, hc, hwd⟩, rfl⟩

theorem createsDir_new (wd : ℕ) (name : Option Name) :
    (Event.mk wd (inCreate ||| inIsDir) name).createsDir := by
  have hmask : ((inCreate ||| inIsDir) &&& inCreate ≠ 0 &&
      (inCreate ||| inIsDir) &&& inIsDir ≠ 0) = true := by decide
  exact hmask

/-- Events on live watches, none of them for a new directory. -/
def Silent (s : State) (events : List Event) : Prop :=
  ∀ e ∈ events, e.createsDir = false ∧ ∃ i, s.watch i = some e.wd

theorem Silent.append {es fs : List Event} (he : Silent s es) (hf : Silent s fs) :
    Silent s (es ++ fs) := by
  intro e hmem
  rcases List.mem_append.mp hmem with hmem | hmem
  · exact he e hmem
  · exact hf e hmem

theorem silent_notify (d : Option (Dir Name)) {mask : UInt32} (name : Option Name)
    (hmask : (mask &&& inCreate ≠ 0 && mask &&& inIsDir ≠ 0) = false) :
    Silent s (s.notify d mask name) := by
  intro e he
  obtain ⟨c, -, hwd, hm, -⟩ := mem_notify.mp he
  exact ⟨by rw [Event.createsDir, hm, hmask], c.ino, hwd⟩

section Steps

variable {p src dst : List Name} {n : Name} {op : Op}

theorem mkdir_cases (h : s.mkdir p n = some s') : ∃ t c,
    c ∈ s.tree.dirs ∧ c.path = p ∧ ¬ s.tree.Exists (p ++ [n]) ∧
      t.dirs = s.tree.dirs ++ [⟨s.tree.nextIno, p ++ [n]⟩] ∧
      s' = s.change t none (s.notify (some c) (inCreate ||| inIsDir) (some n)) := by
  obtain ⟨t, ht, rfl⟩ := Option.map_eq_some_iff.mp h
  obtain ⟨hp, hnew, hdirs⟩ := DirTree.mkdir_eq_some ht
  obtain ⟨c, hc⟩ := Option.isSome_iff_exists.mp (DirTree.find_isSome.mpr hp)
  obtain ⟨hmem, hpath⟩ := DirTree.find_eq_some.mp hc
  exact ⟨t, c, hmem, hpath, hnew, hdirs, by rw [hc]⟩

theorem rmdir_cases (h : s.rmdir p = some s') : ∃ t d events,
    d ∈ s.tree.dirs ∧ d.path = p ∧ t.dirs = s.tree.dirs.filter (fun e => e.path ≠ p) ∧
      Silent s events ∧ s' = s.change t (some d) events := by
  obtain ⟨t, ht, rfl⟩ := Option.map_eq_some_iff.mp h
  obtain ⟨-, hp, hdirs⟩ := DirTree.rmdir_eq_some ht
  obtain ⟨d, hd⟩ := Option.isSome_iff_exists.mp (DirTree.find_isSome.mpr hp)
  obtain ⟨hmem, hpath⟩ := DirTree.find_eq_some.mp hd
  refine ⟨t, d, _, hmem, hpath, hdirs, ?_, by rw [hd]⟩
  exact ((silent_notify _ _ (by decide)).append (silent_notify _ _ (by decide))).append
    (silent_notify _ _ (by decide))

theorem rename_cases (h : s.rename src dst = some s') : ∃ t events,
    s.tree.Renamable src dst ∧ t.dirs = s.tree.renamed src dst ∧ Silent s events ∧
      s' = s.change t (s.tree.find dst) events := by
  obtain ⟨t, ht, rfl⟩ := Option.map_eq_some_iff.mp h
  obtain ⟨hok, hdirs⟩ := DirTree.rename_eq_some ht
  refine ⟨t, _, hok, hdirs, ?_, rfl⟩
  exact ((((silent_notify _ _ (by decide)).append (silent_notify _ _ (by decide))).append
    (silent_notify _ _ (by decide))).append (silent_notify _ _ (by decide))).append
    (silent_notify _ _ (by decide))

theorem other_cases {e : Event} (h : step root (.other e) s = some s') :
    Silent s [e] ∧ s' = s.change s.tree none [e] := by
  simp only [step, Option.ite_none_right_eq_some, Option.some.injEq] at h
  obtain ⟨⟨hmask, d, -, hwd⟩, rfl⟩ := h
  exact ⟨by simpa [Silent, hmask] using ⟨d.ino, hwd⟩, by simp [State.change]⟩

theorem read_cases {k : ℕ} (h : step root (.read k) s = some s') :
    s' = { s with buf := s.queue.take k, queue := s.queue.drop k } ∧ s'.pending = s.pending := by
  simp only [step, Option.ite_none_right_eq_some, Option.some.injEq] at h
  obtain ⟨⟨-, hbuf, -⟩, rfl⟩ := h
  exact ⟨rfl, by simp [State.pending, hbuf]⟩

theorem handleEvent_running {i : Event} (h : (handleEvent root i s).stopped = none) :
    (i.createsDir = false ∧ handleEvent root i s = s) ∨
      (i.createsDir ∧ ∃ name d wd, i.name = some name ∧
        Watched root (tmpStr s i.wd name) s (handleEvent root i s) d wd) := by
  by_cases hcreates : i.createsDir
  · simp only [handleEvent, if_pos hcreates] at h ⊢
    cases hname : i.name with
    | none => simp [hname] at h
    | some name =>
        simp only [hname] at h ⊢
        split_ifs at h ⊢
        obtain ⟨d, wd, hw⟩ := watchDir_running h
        exact .inr ⟨hcreates, name, d, wd, rfl, hw⟩
  · exact .inl ⟨by simpa using hcreates, if_neg hcreates⟩

/-- An event that is handled without stopping the monitor. -/
theorem handle_cases (h : step root .handle s = some s') (hs' : s'.stopped = none) :
    ∃ i rest, s.buf = i :: rest ∧
      ((i.createsDir = false ∧ s' = { s with buf := rest }) ∨
        (i.createsDir ∧ ∃ name s₁ d wd, i.name = some name ∧
          Watched root (tmpStr s i.wd name) s s₁ d wd ∧ s' = { s₁ with buf := rest })) := by
  simp only [step, Option.ite_none_right_eq_some] at h
  obtain ⟨hs, h⟩ := h
  rcases hbuf : s.buf with _ | ⟨i, rest⟩ <;> rw [hbuf] at h
  · contradiction
  · obtain rfl := Option.some.inj h
    have hrun : (handleEvent root i s).stopped = none := by
      by_contra hstop
      rw [if_neg hstop] at hs'
      exact hstop hs'
    refine ⟨i, rest, rfl, ?_⟩
    rw [if_pos hrun]
    rcases handleEvent_running hrun with ⟨hcreates, heq⟩ | ⟨hcreates, name, d, wd, hname, hw⟩
    · exact .inl ⟨hcreates, by rw [heq]⟩
    · exact .inr ⟨hcreates, name, _, d, wd, hname, hw, rfl⟩

/-- A monitor that has stopped does not run again. -/
theorem stopped_of_step (h : step root op s = some s') (hs' : s'.stopped = none) :
    s.stopped = none := by
  cases op with
  | mkdir p n =>
      obtain ⟨t, c, -, -, -, -, rfl⟩ := mkdir_cases h
      exact hs'
  | rmdir p =>
      obtain ⟨t, d, events, -, -, -, -, rfl⟩ := rmdir_cases h
      exact hs'
  | rename src dst =>
      obtain ⟨t, events, -, -, -, rfl⟩ := rename_cases h
      exact hs'
  | other e =>
      obtain ⟨-, rfl⟩ := other_cases h
      exact hs'
  | read k =>
      obtain ⟨rfl, -⟩ := read_cases h
      exact hs'
  | handle => exact (Option.ite_none_right_eq_some.mp h).1

theorem Wf.step (hs : Wf s) (h : step root op s = some s') (hs' : s'.stopped = none) : Wf s' := by
  cases op with
  | mkdir p n =>
      obtain ⟨t, c, hc, -, -, hdirs, rfl⟩ := mkdir_cases h
      refine hs.change ?_ ?_
      · intro d hd _
        exact ⟨d, by rw [hdirs]; exact List.mem_append_left _ hd, rfl⟩
      · intro e he
        obtain ⟨c, -, hwd, -⟩ := mem_notify.mp he
        exact ⟨c.ino, hwd⟩
  | rmdir p =>
      obtain ⟨t, d, events, hd, rfl, hdirs, hsilent, rfl⟩ := rmdir_cases h
      refine hs.change ?_ (fun e he => (hsilent e he).2)
      intro e he hne
      refine ⟨e, ?_, rfl⟩
      rw [hdirs, List.mem_filter, decide_eq_true_eq]
      refine ⟨he, fun hpath => hne ?_⟩
      rw [s.tree.path_inj e he d hd hpath]
      rfl
  | rename src dst =>
      obtain ⟨t, events, hok, hdirs, hsilent, rfl⟩ := rename_cases h
      refine hs.change ?_ (fun e he => (hsilent e he).2)
      intro e he hne
      refine ⟨⟨e.ino, DirTree.move src dst e.path⟩, ?_, rfl⟩
      rw [hdirs]
      refine DirTree.mem_renamed.mpr ⟨e, he, ?_, rfl⟩
      intro hpath
      rw [DirTree.find_eq_some.mpr ⟨he, hpath⟩] at hne
      exact hne rfl
  | other e =>
      obtain ⟨hsilent, rfl⟩ := other_cases h
      exact hs.change (fun d hd _ => ⟨d, hd, rfl⟩) (fun e he => (hsilent e he).2)
  | read k =>
      obtain ⟨rfl, hpending⟩ := read_cases h
      exact hs.of_pending _ _ (fun e he => hpending ▸ he)
  | handle =>
      obtain ⟨i, rest, hbuf, ⟨-, rfl⟩ | ⟨-, name, s₁, d, wd, -, hw, rfl⟩⟩ := handle_cases h hs'
      · refine hs.of_pending rest s.queue (fun e he => ?_)
        rw [State.pending, hbuf]
        exact List.mem_cons_of_mem _ he
      · refine (hs.watched hw).of_pending rest s₁.queue (fun e he => ?_)
        rw [State.pending, hw.buf_eq, hbuf]
        exact List.mem_cons_of_mem _ he

end Steps

/-- The table gives every watched directory its current path. -/
def Named (root : List UInt8) (s : State) : Prop :=
  ∀ d ∈ s.tree.dirs, ∀ wd, s.watch d.ino = some wd → resolve root (s.paths wd) = some d.path

theorem Named.watched {d : Dir Name} {wd : ℕ} (hn : Named root s) (hs : Wf s)
    (h : Watched root path s s' d wd) : Named root s' := by
  intro e he w hw
  rw [h.tree_eq] at he
  rw [h.paths_eq]
  rcases h.watch_cases hw with ⟨hino, rfl⟩ | ⟨hne, hw⟩
  · rw [Function.update_self, h.resolved, s.tree.ino_inj e he d h.mem hino]
  · rw [Function.update_of_ne (h.ne_of_watch hs hne hw)]
    exact hn e he w hw

/-- A change of the tree that moves no watched directory. -/
theorem Named.change {t : DirTree Name} {gone : Option (Dir Name)} {events : List Event}
    (hn : Named root s)
    (hsame : ∀ e ∈ t.dirs, ∀ wd, s.watch e.ino = some wd → e ∈ s.tree.dirs) :
    Named root (s.change t gone events) := by
  intro e he wd hwd
  obtain ⟨-, hwd⟩ := change_watch hwd
  exact hn e (hsame e he wd hwd) wd hwd

/-- A new directory has no watch yet. -/
theorem Wf.watch_new (hs : Wf s) : s.watch s.tree.nextIno = none := by
  by_contra hne
  obtain ⟨wd, hwd⟩ := Option.ne_none_iff_exists'.mp hne
  obtain ⟨d, hd, hino⟩ := hs.watch_mem _ wd hwd
  exact absurd (s.tree.ino_lt d hd) (by omega)

/-- No watched directory is at or under the source of the rename. -/
def MovesNoWatch (op : Op) (s : State) : Prop :=
  match op with
  | .rename src _ => ∀ d ∈ s.tree.dirs, src <+: d.path → s.watch d.ino = none
  | _ => True

instance (op : Op) (s : State) : Decidable (MovesNoWatch op s) :=
  match op with
  | .rename src _ =>
      inferInstanceAs (Decidable (∀ d ∈ s.tree.dirs, src <+: d.path → s.watch d.ino = none))
  | .mkdir _ _ | .rmdir _ | .other _ | .read _ | .handle => inferInstanceAs (Decidable True)

theorem Named.step {op : Op} (hn : Named root s) (hs : Wf s) (hok : MovesNoWatch op s)
    (h : step root op s = some s') (hs' : s'.stopped = none) : Named root s' := by
  cases op with
  | mkdir p n =>
      obtain ⟨t, c, hc, -, -, hdirs, rfl⟩ := mkdir_cases h
      refine hn.change ?_
      intro e he wd hwd
      rw [hdirs] at he
      rcases List.mem_append.mp he with he | he
      · exact he
      · rw [List.mem_singleton.mp he, hs.watch_new] at hwd
        contradiction
  | rmdir p =>
      obtain ⟨t, d, events, -, -, hdirs, -, rfl⟩ := rmdir_cases h
      refine hn.change ?_
      intro e he _ _
      rw [hdirs] at he
      exact List.mem_of_mem_filter he
  | rename src dst =>
      obtain ⟨t, events, -, hdirs, -, rfl⟩ := rename_cases h
      refine hn.change ?_
      intro e he wd hwd
      rw [hdirs] at he
      obtain ⟨d, hd, -, rfl⟩ := DirTree.mem_renamed.mp he
      have hnot : ¬ src <+: d.path := by
        intro hpre
        rw [hok d hd hpre] at hwd
        contradiction
      rw [DirTree.move_of_not hnot]
      exact hd
  | other e =>
      obtain ⟨-, rfl⟩ := other_cases h
      exact hn.change (fun e he _ _ => he)
  | read k =>
      obtain ⟨rfl, -⟩ := read_cases h
      exact hn
  | handle =>
      obtain ⟨i, rest, -, ⟨-, rfl⟩ | ⟨-, name, s₁, d, wd, -, hw, rfl⟩⟩ := handle_cases h hs'
      · exact hn
      · have hn₁ : Named root s₁ := hn.watched hs hw
        exact hn₁

/-- The path `watchDir` is called on when the event is handled. -/
def State.target (root : List UInt8) (s : State) (e : Event) : Option (List Name) :=
  if e.createsDir then e.name.bind fun n => resolve root (tmpStr s e.wd n) else none

/-- The event reports a new directory `n` in the directory `q`. -/
def Event.Reports (root : List UInt8) (s : State) (e : Event) (q : List Name) (n : Name) : Prop :=
  e.createsDir ∧ e.name = some n ∧ resolve root (s.paths e.wd) = some q

theorem Event.Reports.target {e : Event} {q : List Name} {n : Name} (h : e.Reports root s q n) :
    s.target root e = some (q ++ [n]) := by
  obtain ⟨hcreates, hname, hres⟩ := h
  rw [State.target, if_pos hcreates, hname, Option.bind_some, tmpStr, resolve_append hres]

/-- Every directory has a watch or a pending event that leads to one. -/
def Covered (root : List UInt8) (s : State) : Prop :=
  ∀ d ∈ s.tree.dirs, (∃ wd, s.watch d.ino = some wd) ∨
    ∃ e ∈ s.pending, ∃ q n, e.Reports root s q n ∧ d.path = q ++ [n]

/-- Directories are made in watched directories only, and none is renamed. -/
def CreatesInWatched (op : Op) (s : State) : Prop :=
  match op with
  | .mkdir p _ => ∀ d ∈ s.tree.dirs, d.path = p → s.watch d.ino ≠ none
  | .rename _ _ => False
  | _ => True

instance (op : Op) (s : State) : Decidable (CreatesInWatched op s) :=
  match op with
  | .mkdir p _ => inferInstanceAs (Decidable (∀ d ∈ s.tree.dirs, d.path = p → s.watch d.ino ≠ none))
  | .rename _ _ => inferInstanceAs (Decidable False)
  | .rmdir _ | .other _ | .read _ | .handle => inferInstanceAs (Decidable True)

/-- The watch that was just added does not change what other events report. -/
theorem Watched.reports {d : Dir Name} {wd : ℕ} (h : Watched root path s s' d wd) {e : Event}
    (hlt : e.wd < s.nextWd)
    (hnamed : s.watch d.ino = some e.wd → resolve root (s.paths e.wd) = some d.path)
    {q : List Name} {n : Name} (hrep : e.Reports root s q n) : e.Reports root s' q n := by
  refine ⟨hrep.1, hrep.2.1, ?_⟩
  rw [h.paths_eq]
  by_cases hwd : e.wd = wd
  · rcases h.descriptor with ⟨hold, -⟩ | ⟨-, rfl, -⟩
    · rw [← hwd] at hold
      rw [hwd, Function.update_self, h.resolved, ← hnamed hold, hrep.2.2]
    · omega
  · rw [Function.update_of_ne hwd]
    exact hrep.2.2

/-- A change of the tree keeps what covers a directory that is not the one removed. -/
theorem covered_change {d : Dir Name} (t : DirTree Name) (gone : Option (Dir Name))
    (events : List Event) (hkeep : ∀ c ∈ gone, c.ino ≠ d.ino)
    (h : (∃ wd, s.watch d.ino = some wd) ∨
      ∃ e ∈ s.pending, ∃ q n, e.Reports root s q n ∧ d.path = q ++ [n]) :
    (∃ wd, (s.change t gone events).watch d.ino = some wd) ∨
      ∃ e ∈ (s.change t gone events).pending, ∃ q n,
        e.Reports root (s.change t gone events) q n ∧ d.path = q ++ [n] := by
  rw [change_pending]
  rcases h with ⟨wd, hwd⟩ | ⟨e, he, hrep⟩
  · refine .inl ⟨wd, ?_⟩
    cases gone with
    | none => simpa [State.change] using hwd
    | some c => simpa [State.change, hkeep c rfl] using hwd
  · exact .inr ⟨e, List.mem_append_left _ he, hrep⟩

theorem Covered.handle (hc : Covered root s) (hs : Wf s) (hn : Named root s)
    (h : WatchDirectoryTree.step root .handle s = some s') (hs' : s'.stopped = none) :
    Covered root s' := by
  obtain ⟨i, rest, hbuf, ⟨hcreates, rfl⟩ | ⟨hcreates, name, s₁, d, wd, hname, hw, rfl⟩⟩ :=
    handle_cases h hs'
  · intro d hd
    rcases hc d hd with hwatch | ⟨e, he, hrep⟩
    · exact .inl hwatch
    · rw [State.pending, hbuf, List.cons_append] at he
      rcases List.mem_cons.mp he with rfl | he
      · obtain ⟨q, n, hrep, -⟩ := hrep
        exact absurd hrep.1 (by simp [hcreates])
      · exact .inr ⟨e, he, hrep⟩
  · intro c hmem
    rw [hw.tree_eq] at hmem
    by_cases hino : c.ino = d.ino
    · exact .inl ⟨wd, by simp [hw.watch_eq, hino]⟩
    rcases hc c hmem with ⟨w, hwatch⟩ | ⟨e, he, q, n, hrep, hpath⟩
    · refine .inl ⟨w, ?_⟩
      rw [hw.watch_eq]
      exact (Function.update_of_ne hino _ _).trans hwatch
    · rw [State.pending, hbuf, List.cons_append] at he
      rcases List.mem_cons.mp he with rfl | hrest
      · -- the event that was handled reports the directory it put under watch
        obtain rfl : name = n := Option.some.inj (hname.symm.trans hrep.2.1)
        have hd := resolve_append hrep.2.2 name
        rw [← hpath, ← tmpStr, hw.resolved, Option.some.injEq] at hd
        exact absurd (congrArg Dir.ino (s.tree.path_inj d hw.mem c hmem hd)).symm hino
      · have hlt : e.wd < s.nextWd := hs.pending_lt e (by
          rw [State.pending, hbuf]
          exact List.mem_cons_of_mem _ hrest)
        refine .inr ⟨e, ?_, q, n, hw.reports hlt (hn d hw.mem e.wd) hrep, hpath⟩
        show e ∈ rest ++ s₁.queue
        rwa [hw.queue_eq]

theorem Covered.step {op : Op} (hc : Covered root s) (hs : Wf s) (hn : Named root s)
    (hok : CreatesInWatched op s) (h : step root op s = some s') (hs' : s'.stopped = none) :
    Covered root s' := by
  cases op with
  | mkdir p n =>
      obtain ⟨t, c, hmem, hpath, -, hdirs, rfl⟩ := mkdir_cases h
      intro d hd
      rcases List.mem_append.mp (hdirs ▸ hd : d ∈ _ ++ _) with hd | hd
      · exact covered_change t none _ (by simp) (hc d hd)
      · -- the event for the new directory
        obtain ⟨wd, hwd⟩ := Option.ne_none_iff_exists'.mp (hok c hmem hpath)
        rw [change_pending]
        refine .inr ⟨⟨wd, inCreate ||| inIsDir, some n⟩, ?_, p, n, ⟨createsDir_new wd _, rfl, ?_⟩, ?_⟩
        · exact List.mem_append_right _ (mem_notify.mpr ⟨c, rfl, hwd, rfl, rfl⟩)
        · rw [← hpath]
          exact hn c hmem wd hwd
        · rw [List.mem_singleton.mp hd]
  | rmdir p =>
      obtain ⟨t, c, events, hmem, hpath, hdirs, -, rfl⟩ := rmdir_cases h
      intro d hd
      obtain ⟨hd, hne⟩ := List.mem_filter.mp (hdirs ▸ hd : d ∈ List.filter _ _)
      refine covered_change t _ events ?_ (hc d hd)
      rintro _ ⟨⟩ heq
      rw [← s.tree.ino_inj c hmem d hd heq, hpath] at hne
      simp at hne
  | rename src dst => exact hok.elim
  | other e =>
      obtain ⟨-, rfl⟩ := other_cases h
      exact fun d hd => covered_change s.tree none _ (by simp) (hc d hd)
  | read k =>
      obtain ⟨rfl, hpending⟩ := read_cases h
      intro d hd
      rw [hpending]
      exact hc d hd
  | handle => exact hc.handle hs hn h hs'

theorem resolve_foldl_join {str : List UInt8} {q : List Name} (h : resolve root str = some q)
    (p : List Name) : resolve root (p.foldl join str) = some (q ++ p) := by
  induction p generalizing str q with
  | nil => simpa using h
  | cons n p ih => simpa using ih (resolve_join h n)

theorem resolve_fpath (root : List UInt8) (p : List Name) :
    resolve root (fpath root p) = some p :=
  resolve_foldl_join (resolve_self root) p

theorem nftw_stopped (ds : List (Dir Name)) (hs : s.stopped ≠ none) :
    (nftw root ds s).stopped ≠ none := by
  induction ds with
  | nil => exact hs
  | cons d ds ih =>
      simp only [nftw, List.foldl_cons, if_neg hs]
      exact ih

theorem nftw_cons (hs : s.stopped = none) (d : Dir Name) (ds : List (Dir Name)) :
    nftw root (d :: ds) s = nftw root ds (watchDir root (fpath root d.path) s) := by
  simp only [nftw, List.foldl_cons, if_pos hs]

/-- A directory `nftw` has visited is under watch. -/
theorem watched_of_fpath {d : Dir Name} (hd : d ∈ s.tree.dirs)
    (h : (watchDir root (fpath root d.path) s).stopped = none) :
    ∃ wd, Watched root (fpath root d.path) s (watchDir root (fpath root d.path) s) d wd := by
  obtain ⟨c, wd, hw⟩ := watchDir_running h
  have hpath := hw.resolved.symm.trans (resolve_fpath root d.path)
  rw [s.tree.path_inj c hw.mem d hd (Option.some.inj hpath)] at hw
  exact ⟨wd, hw⟩

/-- `nftw` puts a watch on every directory it visits, with its path in the table. -/
theorem nftw_running {ds : List (Dir Name)} (hds : ∀ d ∈ ds, d ∈ s.tree.dirs) (hs : Wf s)
    (hn : Named root s) (hrun : (nftw root ds s).stopped = none) :
    Wf (nftw root ds s) ∧ Named root (nftw root ds s) ∧ (nftw root ds s).tree = s.tree ∧
      (nftw root ds s).pending = s.pending ∧
      (∀ i, s.watch i ≠ none → (nftw root ds s).watch i ≠ none) ∧
      ∀ d ∈ ds, (nftw root ds s).watch d.ino ≠ none := by
  induction ds generalizing s with
  | nil => exact ⟨hs, hn, rfl, rfl, fun _ h => h, by simp⟩
  | cons d ds ih =>
      have hstop : s.stopped = none := by
        by_contra hne
        exact nftw_stopped (d :: ds) hne hrun
      rw [nftw_cons hstop] at hrun ⊢
      have hfirst : (watchDir root (fpath root d.path) s).stopped = none := by
        by_contra hne
        exact nftw_stopped ds hne hrun
      obtain ⟨wd, hw⟩ := watched_of_fpath (hds d (by simp)) hfirst
      have hsub : ∀ e ∈ ds, e ∈ (watchDir root (fpath root d.path) s).tree.dirs := by
        rw [hw.tree_eq]
        exact fun e he => hds e (by simp [he])
      obtain ⟨hwf, hnamed, htree, hpending, hold, hnew⟩ :=
        ih hsub (hs.watched hw) (hn.watched hs hw) hrun
      refine ⟨hwf, hnamed, htree.trans hw.tree_eq, hpending.trans hw.pending_eq, ?_, ?_⟩
      · intro i hi
        refine hold i ?_
        rw [hw.watch_eq]
        by_cases hid : i = d.ino
        · simp [hid]
        · rwa [Function.update_of_ne hid]
      · intro e he
        rcases List.mem_cons.mp he with rfl | he
        · exact hold e.ino (by simp [hw.watch_eq])
        · exact hnew e he

/-- When the loop starts every directory is watched under its path. -/
theorem start_running {tree : DirTree Name} (h : (start root tree).stopped = none) :
    Wf (start root tree) ∧ Named root (start root tree) ∧ Covered root (start root tree) := by
  obtain ⟨hwf, hnamed, htree, -, -, hwatch⟩ := nftw_running (s := .initial tree)
    (fun d hd => hd) (wf_initial tree) (by intro d _ wd hwd; contradiction) h
  refine ⟨hwf, hnamed, ?_⟩
  intro d hd
  have hsame : (start root tree).tree = tree := htree
  rw [hsame] at hd
  exact .inl (Option.ne_none_iff_exists'.mp (hwatch d hd))

/-- While the monitor runs, an invariant of its start and of its steps holds. -/
theorem runs_invariant {tree : DirTree Name} {ok : Op → State → Prop} (Inv : State → Prop)
    (hstart : (start root tree).stopped = none → Inv (start root tree))
    (hstep : ∀ op s s', Inv s → ok op s → step root op s = some s' → s'.stopped = none → Inv s')
    (h : (runs root tree ok).Reachable s) (hs : s.stopped = none) : Inv s := by
  refine System.invariant_of_nextWhen (fun s => s.stopped = none → Inv s) hstart ?_ h hs
  · intro op s s' hinv hok hop hs'
    exact hstep op s s' (hinv (stopped_of_step hop hs')) hok hop hs'

/-- In a run that makes directories in watched directories only, whenever all events
are handled every directory has a watch. -/
theorem settled_all_watched {tree : DirTree Name}
    (h : (runs root tree CreatesInWatched).Reachable s) (hs : s.Settled) :
    ∀ d ∈ s.tree.dirs, ∃ wd, s.watch d.ino = some wd := by
  have hinv := runs_invariant (fun s => Wf s ∧ Named root s ∧ Covered root s) start_running ?_ h hs.1
  · intro d hd
    rcases hinv.2.2 d hd with hwatch | ⟨e, he, -⟩
    · exact hwatch
    · rw [hs.2] at he
      contradiction
  · rintro op s s' ⟨hwf, hn, hc⟩ hok hop hs'
    have hmoves : MovesNoWatch op s := by
      cases op <;> first | exact trivial | exact hok.elim
    exact ⟨hwf.step hop hs', hn.step hwf hmoves hop hs', hc.step hwf hn hok hop hs'⟩

/-- The names `a` and `b`. -/
abbrev nameA : Name := ⟨[97], by decide⟩
abbrev nameB : Name := ⟨[98], by decide⟩

/-- `mkdir a`, handled before the next operation, `mkdir a/b` and its handling. -/
theorem settled_all_watched_nested :
    ∃ s, (runs [114] (.single Name) CreatesInWatched).Reachable s ∧ s.Settled ∧
      s.tree.Exists [nameA, nameB] ∧ ∀ d ∈ s.tree.dirs, ∃ wd, s.watch d.ino = some wd := by
  have hreach := System.reachable_of_scheduleWhen
    (System.Reachable.start (M := runs [114] (.single Name) CreatesInWatched) rfl)
    [.mkdir [] nameA, .read 1, .handle, .mkdir [nameA] nameB, .read 1, .handle] rfl
  exact ⟨_, hreach, ⟨rfl, rfl⟩, by decide, settled_all_watched hreach ⟨rfl, rfl⟩⟩

/-- `mkdir a` and `mkdir a/b` before the first event is handled: `a` gets its watch
too late, and no event ever names `a/b`. -/
theorem nested_creation_unwatched :
    ¬ ∀ s, (runs [114] (.single Name) fun op _ => op.isRename = false).Reachable s → s.Settled →
      ∀ d ∈ s.tree.dirs, ∃ wd, s.watch d.ino = some wd := by
  intro hall
  have hreach := System.reachable_of_scheduleWhen
    (System.Reachable.start (M := runs [114] (.single Name) fun op _ => op.isRename = false) rfl)
    [.mkdir [] nameA, .mkdir [nameA] nameB, .read 1, .handle] rfl
  obtain ⟨wd, hwd⟩ := hall _ hreach ⟨rfl, rfl⟩ ⟨2, [nameA, nameB]⟩ (by decide)
  contradiction

/-- In a run that renames no watched directory and none above one, whenever all events
are handled the table has the current path of every watched directory, and the event
of a directory made next is attributed to its path. -/
theorem settled_paths_current {tree : DirTree Name}
    (h : (runs root tree MovesNoWatch).Reachable s) (hs : s.Settled) :
    ∀ d ∈ s.tree.dirs, ∀ wd, s.watch d.ino = some wd →
      resolve root (s.paths wd) = some d.path ∧
      ∀ n s', step root (.mkdir d.path n) s = some s' →
        s'.pending = [⟨wd, inCreate ||| inIsDir, some n⟩] ∧
          resolve root (tmpStr s' wd n) = some (d.path ++ [n]) := by
  have hinv := runs_invariant (fun s => Wf s ∧ Named root s)
    (fun hrun => ⟨(start_running hrun).1, (start_running hrun).2.1⟩) ?_ h hs.1
  · intro d hd wd hwd
    have hpath := hinv.2 d hd wd hwd
    refine ⟨hpath, ?_⟩
    intro n s' hmk
    obtain ⟨t, c, hc, hcd, -, -, rfl⟩ := mkdir_cases hmk
    rw [s.tree.path_inj c hc d hd hcd]
    refine ⟨?_, resolve_append hpath n⟩
    rw [change_pending, hs.2]
    simp [State.notify, hwd]
  · rintro op s s' ⟨hwf, hn⟩ hok hop hs'
    exact ⟨hwf.step hop hs', hn.step hwf hok hop hs'⟩

/-- A directory may be renamed before its creation event is handled. -/
theorem settled_paths_current_renamed :
    ∃ s, (runs [114] (.single Name) MovesNoWatch).Reachable s ∧ s.Settled ∧
      s.watch 2 = some 2 ∧ resolve [114] (s.paths 2) = some [nameA] := by
  have hreach := System.reachable_of_scheduleWhen
    (System.Reachable.start (M := runs [114] (.single Name) MovesNoWatch) rfl)
    [.mkdir [] nameA, .rename [nameA] [nameB], .mkdir [] nameA, .read 4, .handle, .handle, .handle,
      .handle] rfl
  exact ⟨_, hreach, ⟨rfl, rfl⟩, rfl,
    (settled_paths_current hreach ⟨rfl, rfl⟩ ⟨2, [nameA]⟩ (by decide) 2 rfl).1⟩

/-- A watched directory `a` is renamed to `b`; its entry of `paths` keeps the name `a`. -/
theorem renamed_path_stale :
    ¬ ∀ s, (runs [114] (.single Name) fun _ _ => True).Reachable s → s.Settled →
      ∀ d ∈ s.tree.dirs, ∀ wd, s.watch d.ino = some wd →
        resolve [114] (s.paths wd) = some d.path := by
  intro hall
  have hreach := System.reachable_of_scheduleWhen
    (System.Reachable.start (M := runs [114] (.single Name) fun _ _ => True) rfl)
    [.mkdir [] nameA, .read 1, .handle, .rename [nameA] [nameB], .read 3, .handle, .handle, .handle]
    rfl
  have hstale := hall _ hreach ⟨rfl, rfl⟩ ⟨1, [nameB]⟩ (by decide) 2 rfl
  contradiction

end TlpiExercises.WatchDirectoryTree
