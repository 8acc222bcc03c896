import TlpiExercises.DirTree
import TlpiExercises.Transition

/-!
# Watching a directory tree with inotify

The state is the directory tree with the kernel's watches and event queue, and the
variables of the monitor. Other processes create, remove and rename directories;
the kernel queues an event for every watched directory concerned. The monitor
reads events in batches and adds a watch for each directory a creation event names,
under the path it finds in its table `paths`. File system operations, reads and the
handling of single events interleave in any order; no event is dropped.

The tree holds directories only. Every one can be read and searched, there are no links and no
limit on the number of watches, so `inotify_add_watch` fails only where there is no directory,
and `nftw` reports each directory with the type `FTW_D`: the test for it in `addWatch` and the
files it skips are left out.
-/
namespace TlpiExercises.WatchDirectoryTree
open PathName

/-- The bits of `mask` for the events below. -/
abbrev inMovedFrom : UInt32 := 0x40
abbrev inMovedTo : UInt32 := 0x80
abbrev inCreate : UInt32 := 0x100
abbrev inDelete : UInt32 := 0x200
abbrev inDeleteSelf : UInt32 := 0x400
abbrev inMoveSelf : UInt32 := 0x800
abbrev inIgnored : UInt32 := 0x8000
abbrev inIsDir : UInt32 := 0x40000000

/-- `struct inotify_event`; there is no name when `len` is 0. -/
structure Event where
  wd : ℕ
  mask : UInt32
  name : Option Name
  deriving DecidableEq

/-- `i->mask & IN_CREATE && i->mask & IN_ISDIR`. -/
def Event.createsDir (e : Event) : Bool := e.mask &&& inCreate ≠ 0 && e.mask &&& inIsDir ≠ 0

/-- `sizeof(struct inotify_event) + len`: a name is followed by a zero and padded to
a multiple of 16 bytes. -/
def Event.size (e : Event) : ℕ :=
  16 + (e.name.map fun n => (n.val.length / 16 + 1) * 16).getD 0

/-- `BUF_LEN`. -/
abbrev bufLen : ℕ := 10 * (16 + 300 + 1)

/-- The number of entries of `paths` and of `watchDesc`. -/
abbrev maxWatches : ℕ := 10000

/-- The size of an entry of `paths`. -/
abbrev pathSize : ℕ := 500

/-- The size of `tmpStr`. -/
abbrev tmpSize : ℕ := 1000

/-- Why the monitor no longer runs: `exit` after a failed `inotify_add_watch`, an
index outside `paths` or `watchDesc`, a string longer than the array it is copied
to, or a creation event that holds no name. -/
inductive Stop where
  | addWatchFailed
  | index
  | overflow
  | noName
  deriving DecidableEq, Repr

structure State where
  tree : DirTree Name
  watch : ℕ → Option ℕ
  nextWd : ℕ
  queue : List Event
  buf : List Event
  watchDescCnt : ℕ
  watchDesc : ℕ → ℤ
  paths : ℕ → List UInt8
  stopped : Option Stop

/-- The events that are generated and not yet handled. -/
def State.pending (s : State) : List Event := s.buf ++ s.queue

/-- The monitor runs and has handled every event. -/
def State.Settled (s : State) : Prop := s.stopped = none ∧ s.pending = []

/-- `inotify_add_watch`: the descriptor of the directory at `path`, or -1 if there is
none. A directory that is already watched keeps its descriptor; a new one is fresh. -/
def inotifyAddWatch (root path : List UInt8) (s : State) : ℤ × State :=
  match (resolve root path).bind s.tree.find with
  | none => (-1, s)
  | some d =>
      match s.watch d.ino with
      | some wd => (wd, s)
      | none => (s.nextWd,
          { s with watch := Function.update s.watch d.ino (some s.nextWd), nextWd := s.nextWd + 1 })

/-- What `watchDir` does with the result of `inotify_add_watch`. -/
def recordWatch (path : List UInt8) (wd : ℤ) (s : State) : State :=
  if maxWatches ≤ s.watchDescCnt then { s with stopped := some .index }
  else
    let s := { s with watchDesc := Function.update s.watchDesc s.watchDescCnt wd }
    if wd < 0 then { s with stopped := some .addWatchFailed }
    else if maxWatches ≤ wd.toNat then { s with stopped := some .index }
    else if pathSize ≤ path.length then { s with stopped := some .overflow }
    else { s with
      paths := Function.update s.paths wd.toNat path
      watchDescCnt := s.watchDescCnt + 1 }

def watchDir (root path : List UInt8) (s : State) : State :=
  let r := inotifyAddWatch root path s
  recordWatch path r.1 r.2

/-- The text `handleEvent` builds in `tmpStr`. -/
def tmpStr (s : State) (wd : ℕ) (name : Name) : List UInt8 := s.paths wd ++ slash :: name.val

def handleEvent (root : List UInt8) (i : Event) (s : State) : State :=
  if i.createsDir then
    match i.name with
    | none => { s with stopped := some .noName }
    | some name =>
        if maxWatches ≤ i.wd then { s with stopped := some .index }
        else if tmpSize ≤ (tmpStr s i.wd name).length then { s with stopped := some .overflow }
        else watchDir root (tmpStr s i.wd name) s
  else s

/-- The name `nftw` reports for a directory. -/
def fpath (root : List UInt8) (p : List Name) : List UInt8 := p.foldl join root

/-- `nftw(path, addWatch, 30, 0)` on the directories of the tree. -/
def nftw (root : List UInt8) (dirs : List (Dir Name)) (s : State) : State :=
  dirs.foldl (fun s d => if s.stopped = none then watchDir root (fpath root d.path) s else s) s

/-- The state before `nftw`: no watches, and zeros in the monitor's variables. -/
def State.initial (tree : DirTree Name) : State where
  tree := tree
  watch _ := none
  nextWd := 1
  queue := []
  buf := []
  watchDescCnt := 0
  watchDesc _ := 0
  paths _ := []
  stopped := none

/-- The state in which the monitor enters its loop. -/
def start (root : List UInt8) (tree : DirTree Name) : State :=
  nftw root tree.dirs (.initial tree)

/-- The event for the watch on `d`, if there is one. -/
def State.notify (s : State) (d : Option (Dir Name)) (mask : UInt32) (name : Option Name) :
    List Event :=
  ((d.bind fun d => s.watch d.ino).map fun wd => ⟨wd, mask, name⟩).toList

/-- The tree becomes `t` and the directory `gone` no longer exists, with its watch. -/
def State.change (s : State) (t : DirTree Name) (gone : Option (Dir Name)) (events : List Event) :
    State :=
  { s with
    tree := t
    watch := fun i => if gone.map Dir.ino = some i then none else s.watch i
    queue := s.queue ++ events }

def State.mkdir (p : List Name) (n : Name) (s : State) : Option State :=
  (s.tree.mkdir p n).map fun t =>
    s.change t none (s.notify (s.tree.find p) (inCreate ||| inIsDir) (some n))

/-- Newer kernels queue the event of the parent behind the other two. `handleEvent` only prints
all three, so their order does not matter. -/
def State.rmdir (p : List Name) (s : State) : Option State :=
  (s.tree.rmdir p).map fun t =>
    let gone := s.tree.find p
    s.change t gone
      (s.notify (s.tree.find p.dropLast) (inDelete ||| inIsDir) p.getLast? ++
        s.notify gone inDeleteSelf none ++ s.notify gone inIgnored none)

def State.rename (src dst : List Name) (s : State) : Option State :=
  (s.tree.rename src dst).map fun t =>
    let gone := s.tree.find dst
    s.change t gone
      (s.notify (s.tree.find src.dropLast) (inMovedFrom ||| inIsDir) src.getLast? ++
        s.notify (s.tree.find dst.dropLast) (inMovedTo ||| inIsDir) dst.getLast? ++
        s.notify (s.tree.find src) inMoveSelf none ++
        s.notify gone inDeleteSelf none ++ s.notify gone inIgnored none)

/-- What moves: a process that changes the tree, one that does anything else inotify
reports for a watched directory, or the monitor, which reads `k` events or handles
the next one. -/
inductive Op where
  | mkdir (parent : List Name) (name : Name)
  | rmdir (dir : List Name)
  | rename (src dst : List Name)
  | other (e : Event)
  | read (k : ℕ)
  | handle

def Op.isRename : Op → Bool
  | .rename _ _ => true
  | _ => false

def step (root : List UInt8) : Op → State → Option State
  | .mkdir p n, s => s.mkdir p n
  | .rmdir p, s => s.rmdir p
  | .rename src dst, s => s.rename src dst
  | .other e, s =>
      if e.createsDir = false ∧ ∃ d ∈ s.tree.dirs, s.watch d.ino = some e.wd then
        some { s with queue := s.queue ++ [e] }
      else none
  | .read k, s =>
      if s.stopped = none ∧ s.buf = [] ∧ 0 < k ∧ k ≤ s.queue.length ∧
          ((s.queue.take k).map Event.size).sum ≤ bufLen then
        some { s with buf := s.queue.take k, queue := s.queue.drop k }
      else none
  | .handle, s =>
      if s.stopped = none then
        match s.buf with
        | [] => none
        | i :: rest =>
            let s' := handleEvent root i s
            -- a monitor that stops has not handled the event
            some (if s'.stopped = none then { s' with buf := rest } else s')
      else none

/-- The runs on an initial tree in which every step meets a condition. -/
def runs (root : List UInt8) (tree : DirTree Name) (ok : Op → State → Prop) : System State :=
  .ofNextWhen (· = start root tree) (step root) ok

end TlpiExercises.WatchDirectoryTree
