/-
`run_job`: one move or copy in the background.

A job is a main thread and a pool of workers. The main thread walks the source,
tries to rename the whole tree where that is allowed, makes the directories,
starts the workers, waits for them, and for a move with no failures removes the
source. A worker takes the next file off the list, renames or copies it, and
reports. Each event below is one call of one thread, so that the schedules of a
job, and of several jobs together, are the orders of their events; what the
environment does to the call is a `Fault`.

The record the UI polls (`Job`) is written on the way as the source writes it.
-/
import WebDavs.Mover

set_option autoImplicit false

namespace WebDavs.Mover

open WebDavs.Posix

/-! ## The record of a job -/

/-- `Job::op`. -/
inductive Op where
  | move
  | copy
  | delete
deriving DecidableEq, Repr

/-- `Job::status`. -/
inductive Status where
  | queued
  | running
  | done
  | error
deriving DecidableEq, Repr

/-- `Job::error`: an error number alone, or with the file it is about, or with
the two ends of a transfer and the error of the call that failed, if there is
one to name. -/
inductive JobError where
  | io (e : Errno)
  | file (f : Path) (e : Errno)
  | transfer (src dst : Path) (e : Option Errno)
deriving DecidableEq, Repr

/-- `struct Job`. -/
structure Job where
  op : Op
  src : String
  dst : String
  total_files : Nat
  done_files : Nat
  total_dirs : Nat
  done_dirs : Nat
  total_bytes : UInt64
  done_bytes : UInt64
  current : List Path
  status : Status
  error : Option JobError
deriving DecidableEq

namespace Job

/-- The record a handler registers. -/
def queued (op : Op) (src dst : String) : Job where
  op := op
  src := src
  dst := dst
  total_files := 0
  done_files := 0
  total_dirs := 0
  done_dirs := 0
  total_bytes := 0
  done_bytes := 0
  current := []
  status := .queued
  error := none

/-- `j.current.push(p)`, the oldest of more than six dropped. -/
def push_current (j : Job) (p : Path) : Job :=
  let current := j.current ++ [p]
  { j with current := if current.length > 6 then current.drop 1 else current }

/-- The walk failed: the job ends. -/
def failed_with (j : Job) (e : JobError) : Job := { j with status := .error, error := some e }

/-- The first error a worker meets is the one that is shown. -/
def note_error (j : Job) (e : JobError) : Job :=
  { j with error := match j.error with
      | none => some e
      | some e' => some e' }

/-- The directory `df` has been made. -/
def count_dir (j : Job) (df : Path) : Job :=
  { j with done_dirs := j.done_dirs + 1 }.push_current df

/-- A worker has done with a file of the size `size`. The bytes are added up in a `u64`,
which wraps. -/
def count_file (j : Job) (ok : Bool) (size : UInt64) : Job :=
  { j with
    done_files := j.done_files + 1
    done_bytes := if ok then j.done_bytes + size else j.done_bytes }

/-- The totals of a walk. -/
def totals (j : Job) (files dirs : Nat) (bytes : UInt64) : Job :=
  { j with total_files := files, total_dirs := dirs, total_bytes := bytes }

/-- The whole tree went over in one rename. -/
def all_done (j : Job) : Job :=
  { j with
    done_files := j.total_files
    done_dirs := j.total_dirs
    done_bytes := j.total_bytes
    status := .done }

end Job

/-! ## Workers -/

/-- A file taken off the list, with the size it had then. -/
structure Task where
  idx : Nat
  size : UInt64
deriving DecidableEq

/-- What a worker is about to do: take a number, read the size of its file, show
it in the record, move its contents over in one or more calls, and then count the
file, after it has counted and noted a failure if there was one. -/
inductive Worker where
  | idle
  | measure (idx : Nat)
  | announce (task : Task)
  | rename (task : Task)
  | copy (task : Task)
  | remove (task : Task)
  | fail (task : Task) (err : Option Errno)
  | note (task : Task) (err : Option Errno)
  | report (task : Task) (ok : Bool)
  | stopped
deriving DecidableEq

/-- The number of the file a worker has taken and not reported yet. -/
def Worker.idx : Worker → Option Nat
  | .idle => none
  | .measure n => some n
  | .announce x => some x.idx
  | .rename x => some x.idx
  | .copy x => some x.idx
  | .remove x => some x.idx
  | .fail x _ => some x.idx
  | .note x _ => some x.idx
  | .report x _ => some x.idx
  | .stopped => none

/-! ## The job as a machine -/

/-- Where the main thread of a job is. -/
inductive Phase where
  | queued
  | walking
  | checking (l : Listing)
  | renaming (l : Listing)
  | making (l : Listing) (n : Nat)
  | working (l : Listing) (workers : List Worker) (next failed : Nat)
  | cleaning (l : Listing) (failed : Nat)
  | ending
  | finished
deriving DecidableEq

/-- A job: what it was started with, the record it keeps and where it is. -/
structure Runner where
  op : Op
  src : Path
  src_tail : Path.Tail
  dst : Path
  dst_tail : Path.Tail
  same_drive : Bool
  nthreads : Nat
  job : Job
  phase : Phase
deriving DecidableEq

/-- One call of one of a job's threads. A walk is given fuel. -/
inductive Event where
  | walk (fuel : Nat)
  | main (f : Fault)
  | worker (w : Nat) (f : Fault)

/-- Errors after which a rename falls back to copying. -/
def falls_back : Errno → Bool
  | .exdev => true
  | .eio => true
  | _ => false

/-- The machine the mover runs on: the two mount roots and the number of its
processors, when that is known. -/
structure Host where
  mounts : List Path
  cpus : Option Nat

/-- `available_parallelism` with its default, clamped. -/
def Host.nthreads (h : Host) : Nat := max 1 (min (h.cpus.getD 4) 8)

theorem Host.nthreads_pos (h : Host) : 0 < h.nthreads := by
  unfold nthreads
  omega

namespace Runner

/-- The job a handler spawns. -/
def start (h : Host) (op : Op) (src dst : PathBuf) (job : Job) : Runner where
  op := op
  src := src.path
  src_tail := src.tail
  dst := dst.path
  dst_tail := dst.tail
  same_drive := path_drive h.mounts src.path = path_drive h.mounts dst.path
  nthreads := h.nthreads
  job := job
  phase := .queued

/-- What is behind the last name of a target: below the destination, nothing. -/
def target_tail (r : Runner) (rel : List String) : Path.Tail :=
  if rel = [] then r.dst_tail else .none

@[simp] theorem target_tail_of_ne (r : Runner) {rel : List String} (h : rel ≠ []) :
    r.target_tail rel = .none := if_neg h

theorem target_tail_of_none {r : Runner} (h : r.dst_tail = .none) (rel : List String) :
    r.target_tail rel = .none := by
  unfold target_tail
  split
  · exact h
  · rfl

/-- What a worker does next once it has its file: a move on one drive tries a
rename. -/
def first (r : Runner) (task : Task) : Worker :=
  if r.op = .move ∧ r.same_drive then .rename task else .copy task

/-- `symlink_metadata(sf).map(|m| m.len()).unwrap_or(0)`. -/
def file_size (k : Kernel) (t : FileTree Bytes) (sf : Path) (f : Fault) : UInt64 :=
  match f.errno, k.lstat t sf with
  | none, some e => UInt64.ofNat (size e)
  | _, _ => 0

/-- One call of a worker. It comes back with the tree, the record, how many
tasks have been handed out, how many have failed, and what the worker does
next. -/
def work (k : Kernel) (t : FileTree Bytes) (r : Runner) (l : Listing) (next failed : Nat)
    (f : Fault) : Worker → Option (FileTree Bytes × Job × Nat × Nat × Worker)
  | .idle =>
    match l.files[next]? with
    | none => some (t, r.job, next + 1, failed, .stopped)
    | some _ => some (t, r.job, next + 1, failed, .measure next)
  | .measure idx =>
    match l.files[idx]? with
    | none => none
    | some (sf, _) => some (t, r.job, next, failed, .announce ⟨idx, file_size k t sf f⟩)
  | .announce task =>
    match l.files[task.idx]? with
    | none => none
    | some (sf, _) => some (t, r.job.push_current sf, next, failed, r.first task)
  | .rename task =>
    match l.files[task.idx]? with
    | none => none
    | some (sf, rel) =>
      let df := target_path r.dst rel
      match rename k t sf df (f.rename_at k t sf .none df (r.target_tail rel)) with
      | .ok t' => some (t', r.job, next, failed, .report task true)
      | .error e =>
        if falls_back e then some (t, r.job, next, failed, .copy task)
        else some (t, r.job, next, failed, .fail task (some e))
  | .copy task =>
    match l.files[task.idx]? with
    | none => none
    | some (sf, rel) =>
      let df := target_path r.dst rel
      match copy_file k t sf df (f.copy_file_at k t sf .none df (r.target_tail rel)) with
      | (t', .ok _) =>
        if r.op = .move then some (t', r.job, next, failed, .remove task)
        else some (t', r.job, next, failed, .report task true)
      | (t', .error e) => some (t', r.job, next, failed, .fail task (some e))
  | .remove task =>
    match l.files[task.idx]? with
    | none => none
    | some (sf, _) =>
      match remove_file k t sf f with
      | .ok t' => some (t', r.job, next, failed, .report task true)
      | .error _ => some (t, r.job, next, failed, .fail task none)
  | .fail task err => some (t, r.job, next, failed + 1, .note task err)
  | .note task err =>
    match l.files[task.idx]? with
    | none => none
    | some (sf, rel) =>
      some (t, r.job.note_error (.transfer sf (target_path r.dst rel) err), next, failed,
        .report task false)
  | .report task ok => some (t, r.job.count_file ok task.size, next, failed, .idle)
  | .stopped => none

/-- One event of the job. -/
def step (k : Kernel) (t : FileTree Bytes) (r : Runner) : Event → Option (FileTree Bytes × Runner)
  | .walk fuel =>
    match r.phase with
    | .walking =>
      match walk_from k t r.src r.src_tail (walk_files k t fuel r.src) with
      | none => none
      | some (.error e) =>
        some (t, { r with phase := .finished, job := r.job.failed_with (.io e) })
      | some (.ok l) =>
        some (t, { r with
          phase := .checking l
          job := r.job.totals l.files.length l.dirs.length (UInt64.ofNat l.bytes) })
    | _ => none
  | .main f =>
    match r.phase with
    | .queued => some (t, { r with phase := .walking, job := { r.job with status := .running } })
    | .walking =>
      -- the walk met an error that the tree does not force
      match f.errno with
      | some e => some (t, { r with phase := .finished, job := r.job.failed_with (.io e) })
      | none => none
    | .checking l =>
      if r.op = .move ∧ r.same_drive ∧ k.exists_ t (r.dst.tailed r.dst_tail) = false then
        some (t, { r with phase := .renaming l })
      else some (t, { r with phase := .making l 0 })
    | .renaming l =>
      match rename k t r.src r.dst (f.rename_at k t r.src r.src_tail r.dst r.dst_tail) with
      | .ok t' => some (t', { r with phase := .finished, job := r.job.all_done })
      | .error _ => some (t, { r with phase := .making l 0 })
    | .making l n =>
      match l.dirs[n]? with
      | none => some (t, { r with phase := .working l (List.replicate r.nthreads .idle) 0 0 })
      | some rel =>
        let df := target_path r.dst rel
        let (t', err) := create_dir_all k t df (f.create_dir_all_at k t df (r.target_tail rel))
        some (t', { r with
          phase := .making l (n + 1)
          job := if err.isNone then r.job.count_dir df else r.job })
    | .working l ws _ failed =>
      if ws.all (· = .stopped) then some (t, { r with phase := .cleaning l failed }) else none
    | .cleaning _ failed =>
      if r.op = .move ∧ failed = 0 then
        some ((remove_dir_all_at k t r.src r.src_tail f).1, { r with phase := .ending })
      else some (t, { r with phase := .ending })
    | .ending => some (t, { r with phase := .finished, job := { r.job with status := .done } })
    | .finished => none
  | .worker w f =>
    match r.phase with
    | .working l ws next failed =>
      match ws[w]? with
      | none => none
      | some worker =>
        (work k t r l next failed f worker).map fun x =>
          (x.1, { r with phase := .working l (ws.set w x.2.2.2.2) x.2.2.1 x.2.2.2.1, job := x.2.1 })
    | _ => none

/-! ## The cases of a step -/

/-- What a worker's call can come to. -/
inductive WorkCase (k : Kernel) (t : FileTree Bytes) (r : Runner) (l : Listing)
    (next failed : Nat) (f : Fault) :
    Worker → FileTree Bytes × Job × Nat × Nat × Worker → Prop where
  | drained (h : l.files[next]? = none) :
      WorkCase k t r l next failed f .idle (t, r.job, next + 1, failed, .stopped)
  | taken (g : Path × List String) (h : l.files[next]? = some g) :
      WorkCase k t r l next failed f .idle (t, r.job, next + 1, failed, .measure next)
  | measured (idx : Nat) (sf : Path) (rel : List String) (h : l.files[idx]? = some (sf, rel)) :
      WorkCase k t r l next failed f (.measure idx)
        (t, r.job, next, failed, .announce ⟨idx, file_size k t sf f⟩)
  | announced (task : Task) (sf : Path) (rel : List String)
      (h : l.files[task.idx]? = some (sf, rel)) :
      WorkCase k t r l next failed f (.announce task)
        (t, r.job.push_current sf, next, failed, r.first task)
  | renamed (task : Task) (sf : Path) (rel : List String) (t' : FileTree Bytes)
      (h : l.files[task.idx]? = some (sf, rel)) (hr : k.rename t sf (r.dst.down rel) = .ok t') :
      WorkCase k t r l next failed f (.rename task) (t', r.job, next, failed, .report task true)
  | unrenamed (task : Task) (sf : Path) (rel : List String) (e : Errno)
      (h : l.files[task.idx]? = some (sf, rel))
      (hr : rename k t sf (r.dst.down rel)
        (f.rename_at k t sf .none (r.dst.down rel) (r.target_tail rel)) = .error e) :
      WorkCase k t r l next failed f (.rename task)
        (t, r.job, next, failed, if falls_back e then .copy task else .fail task (some e))
  | copied (task : Task) (sf : Path) (rel : List String) (t' : FileTree Bytes) (m : Nat)
      (h : l.files[task.idx]? = some (sf, rel))
      (hc : copy_file k t sf (r.dst.down rel)
        (f.copy_file_at k t sf .none (r.dst.down rel) (r.target_tail rel)) = (t', .ok m)) :
      WorkCase k t r l next failed f (.copy task)
        (t', r.job, next, failed, if r.op = .move then .remove task else .report task true)
  | uncopied (task : Task) (sf : Path) (rel : List String) (t' : FileTree Bytes) (e : Errno)
      (h : l.files[task.idx]? = some (sf, rel))
      (hc : copy_file k t sf (r.dst.down rel)
        (f.copy_file_at k t sf .none (r.dst.down rel) (r.target_tail rel)) = (t', .error e)) :
      WorkCase k t r l next failed f (.copy task)
        (t', r.job, next, failed, .fail task (some e))
  | removed (task : Task) (sf : Path) (rel : List String) (t' : FileTree Bytes)
      (h : l.files[task.idx]? = some (sf, rel)) (hr : k.remove_file t sf = .ok t') :
      WorkCase k t r l next failed f (.remove task) (t', r.job, next, failed, .report task true)
  | unremoved (task : Task) (sf : Path) (rel : List String) (e : Errno)
      (h : l.files[task.idx]? = some (sf, rel)) (hr : remove_file k t sf f = .error e) :
      WorkCase k t r l next failed f (.remove task) (t, r.job, next, failed, .fail task none)
  | failed (task : Task) (err : Option Errno) :
      WorkCase k t r l next failed f (.fail task err)
        (t, r.job, next, failed + 1, .note task err)
  | noted (task : Task) (err : Option Errno) (e : JobError) :
      WorkCase k t r l next failed f (.note task err)
        (t, r.job.note_error e, next, failed, .report task false)
  | reported (task : Task) (ok : Bool) :
      WorkCase k t r l next failed f (.report task ok)
        (t, r.job.count_file ok task.size, next, failed, .idle)

theorem work_cases {k : Kernel} {t : FileTree Bytes} {r : Runner} {l : Listing}
    {next failed : Nat} {f : Fault} {w : Worker} {x : FileTree Bytes × Job × Nat × Nat × Worker}
    (h : work k t r l next failed f w = some x) : WorkCase k t r l next failed f w x := by
  cases w with
  | idle =>
      simp only [work] at h
      split at h
      · rename_i hn
        cases h
        exact .drained hn
      · rename_i g hn
        cases h
        exact .taken g hn
  | measure idx =>
      simp only [work] at h
      -- the index was handed out, so the list has it; the other branch takes no step
      split at h
      · cases h
      · rename_i sf rel hn
        cases h
        exact .measured idx sf rel hn
  | announce task =>
      simp only [work] at h
      split at h
      · cases h
      · rename_i sf rel hn
        cases h
        exact .announced task sf rel hn
  | rename task =>
      simp only [work] at h
      split at h
      · cases h
      · rename_i sf rel hn
        split at h
        · rename_i t' hr
          cases h
          exact .renamed task sf rel t' hn (by simpa using rename_ok hr)
        · rename_i e hr
          -- one constructor for both ends of a failed rename: it falls back to a copy, or
          -- fails
          have : WorkCase k t r l next failed f (.rename task) _ :=
            .unrenamed task sf rel e hn (by simpa using hr)
          split at h
          · rename_i hfb
            cases h
            simpa [hfb] using this
          · rename_i hfb
            cases h
            simpa [hfb] using this
  | copy task =>
      simp only [work] at h
      split at h
      · cases h
      · rename_i sf rel hn
        split at h
        · rename_i t' m hc
          have : WorkCase k t r l next failed f (.copy task) _ :=
            .copied task sf rel t' m hn (by simpa using hc)
          split at h
          · rename_i hop
            cases h
            simpa [hop] using this
          · rename_i hop
            cases h
            simpa [hop] using this
        · rename_i t' e hc
          cases h
          exact .uncopied task sf rel t' e hn (by simpa using hc)
  | remove task =>
      simp only [work] at h
      split at h
      · cases h
      · rename_i sf rel hn
        split at h
        · rename_i t' hr
          cases h
          exact .removed task sf rel t' hn (remove_file_ok hr)
        · rename_i e hr
          cases h
          exact .unremoved task sf rel e hn hr
  | fail task err =>
      cases h
      exact .failed task err
  | note task err =>
      simp only [work] at h
      split at h
      · cases h
      · cases h
        exact .noted task err _
  | report task ok =>
      cases h
      exact .reported task ok
  | stopped => cases h

/-- What an event of a job can come to. -/
inductive StepCase (k : Kernel) (t : FileTree Bytes) (r : Runner) :
    Event → FileTree Bytes × Runner → Prop where
  | started (f : Fault) (hp : r.phase = .queued) :
      StepCase k t r (.main f)
        (t, { r with phase := .walking, job := { r.job with status := .running } })
  | unwalked (ev : Event) (e : Errno) (hp : r.phase = .walking) :
      StepCase k t r ev (t, { r with phase := .finished, job := r.job.failed_with (.io e) })
  | walked (fuel : Nat) (l : Listing) (hp : r.phase = .walking)
      (hw : walk_files k t fuel r.src = some (.ok l))
      (hb : r.src_tail = .none ∨ k.is_dir t r.src = true) :
      StepCase k t r (.walk fuel) (t, { r with
        phase := .checking l
        job := r.job.totals l.files.length l.dirs.length (UInt64.ofNat l.bytes) })
  | checked_fast (f : Fault) (l : Listing) (hp : r.phase = .checking l) (hop : r.op = .move)
      (hsame : r.same_drive = true) (hx : k.exists_ t (r.dst.tailed r.dst_tail) = false) :
      StepCase k t r (.main f) (t, { r with phase := .renaming l })
  | checked_slow (f : Fault) (l : Listing) (hp : r.phase = .checking l) :
      StepCase k t r (.main f) (t, { r with phase := .making l 0 })
  | renamed_tree (f : Fault) (l : Listing) (t' : FileTree Bytes) (hp : r.phase = .renaming l)
      (hr : k.rename t r.src r.dst = .ok t')
      (hb : (r.src_tail = .none ∧ r.dst_tail = .none) ∨
        r.src_tail ≠ .dot ∧ r.dst_tail ≠ .dot ∧ k.lstat t r.src = some .dir)
      (hok : rename k t r.src r.dst (f.rename_at k t r.src r.src_tail r.dst r.dst_tail) = .ok t') :
      StepCase k t r (.main f) (t', { r with phase := .finished, job := r.job.all_done })
  | unrenamed_tree (f : Fault) (l : Listing) (hp : r.phase = .renaming l) :
      StepCase k t r (.main f) (t, { r with phase := .making l 0 })
  | made (f : Fault) (l : Listing) (n : Nat) (rel : List String) (hp : r.phase = .making l n)
      (hn : l.dirs[n]? = some rel) :
      StepCase k t r (.main f)
        ((create_dir_all k t (r.dst.down rel)
          (f.create_dir_all_at k t (r.dst.down rel) (r.target_tail rel))).1, { r with
        phase := .making l (n + 1)
        job := if (create_dir_all k t (r.dst.down rel)
            (f.create_dir_all_at k t (r.dst.down rel) (r.target_tail rel))).2.isNone then
          r.job.count_dir (r.dst.down rel) else r.job })
  | spawned (f : Fault) (l : Listing) (n : Nat) (hp : r.phase = .making l n)
      (hn : l.dirs[n]? = none) :
      StepCase k t r (.main f)
        (t, { r with phase := .working l (List.replicate r.nthreads .idle) 0 0 })
  | worked (w : Nat) (f : Fault) (l : Listing) (ws : List Worker) (next failed : Nat)
      (worker : Worker) (x : FileTree Bytes × Job × Nat × Nat × Worker)
      (hp : r.phase = .working l ws next failed) (hw : ws[w]? = some worker)
      (hx : WorkCase k t r l next failed f worker x) :
      StepCase k t r (.worker w f) (x.1, { r with
        phase := .working l (ws.set w x.2.2.2.2) x.2.2.1 x.2.2.2.1
        job := x.2.1 })
  | joined (f : Fault) (l : Listing) (ws : List Worker) (next failed : Nat)
      (hp : r.phase = .working l ws next failed) (hws : ∀ w ∈ ws, w = .stopped) :
      StepCase k t r (.main f) (t, { r with phase := .cleaning l failed })
  | cleaned (f : Fault) (l : Listing) (hp : r.phase = .cleaning l 0) (hop : r.op = .move) :
      StepCase k t r (.main f)
        ((remove_dir_all_at k t r.src r.src_tail f).1, { r with phase := .ending })
  | kept (f : Fault) (l : Listing) (failed : Nat) (hp : r.phase = .cleaning l failed)
      (hc : ¬ (r.op = .move ∧ failed = 0)) :
      StepCase k t r (.main f) (t, { r with phase := .ending })
  | ended (f : Fault) (hp : r.phase = .ending) :
      StepCase k t r (.main f)
        (t, { r with phase := .finished, job := { r.job with status := .done } })

theorem step_cases {k : Kernel} {t : FileTree Bytes} {r : Runner} {ev : Event}
    {x : FileTree Bytes × Runner} (h : step k t r ev = some x) : StepCase k t r ev x := by
  cases ev with
  | walk fuel =>
      simp only [step] at h
      split at h
      · rename_i hp
        split at h
        · cases h
        · rename_i e hw
          cases h
          exact .unwalked _ e hp
        · rename_i l hw
          cases h
          obtain ⟨hl, hb⟩ := walk_from_ok hw
          exact .walked fuel l hp hl hb
      · cases h
  | main f =>
      simp only [step] at h
      -- the main thread does what its phase says: one branch for each phase, in their order
      split at h
      · rename_i hp
        cases h
        exact .started f hp
      · rename_i hp
        split at h
        · rename_i e hf
          cases h
          exact .unwalked _ e hp
        · cases h
      · rename_i l hp
        split at h
        · rename_i hc
          cases h
          exact .checked_fast f l hp hc.1 hc.2.1 hc.2.2
        · cases h
          exact .checked_slow f l hp
      · rename_i l hp
        split at h
        · rename_i t' hr
          cases h
          exact .renamed_tree f l t' hp (rename_ok hr) (rename_at_ok hr) hr
        · cases h
          exact .unrenamed_tree f l hp
      · rename_i l n hp
        split at h
        · rename_i hn
          cases h
          exact .spawned f l n hp hn
        · rename_i rel hn
          rw [target_path_eq] at h
          cases h
          exact .made f l n rel hp hn
      · rename_i l ws next failed hp
        split at h
        · rename_i hws
          cases h
          -- the join returns only when every worker has stopped
          refine .joined f l ws next failed hp fun w hw => ?_
          simpa using List.all_eq_true.mp hws w hw
        · cases h
      · rename_i l failed hp
        split at h
        · rename_i hc
          obtain ⟨hop, rfl⟩ := hc
          cases h
          exact .cleaned f l hp hop
        · rename_i hc
          cases h
          exact .kept f l failed hp hc
      · rename_i hp
        cases h
        exact .ended f hp
      · cases h
  | worker w f =>
      simp only [step] at h
      split at h
      · rename_i l ws next failed hp
        split at h
        · cases h
        · rename_i worker hw
          obtain ⟨x', hx, rfl⟩ := Option.map_eq_some_iff.mp h
          exact .worked w f l ws next failed worker x' hp hw (work_cases hx)
      · cases h

end Runner

end WebDavs.Mover
