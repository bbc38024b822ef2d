/-
The counters of a job against what its workers did.

A log is kept beside the job: which numbers the workers took, which sizes they
read, which files went over and which did not, which directories were made. The
log is no part of the program; the record is, and its counters are compared with
the log. The tree may change between any two calls in any way, so that nothing
here depends on what else goes on.
-/
import Mathlib.Data.UInt
import WebDavs.Delete
import WebDavs.Pool
import WebDavs.Steps

set_option autoImplicit false

namespace WebDavs.Mover

open WebDavs.Posix WebDavs.Steps

/-! ## The log -/

/-- What has happened in a job: how many files and directories the walk listed,
which numbers the workers took, which sizes they read, how each file came out,
which files were counted, which directories were made or removed, whether the
whole was done in one call, and whether the workers have been joined. -/
structure Log where
  listed : Option (Nat × Nat)
  taken : List Nat
  measured : List Task
  outcomes : List (Task × Bool)
  reported : List Nat
  dirs : List Nat
  whole : Bool
  joined : Bool

namespace Log

/-- Nothing has happened yet. -/
def empty : Log := ⟨none, [], [], [], [], [], false, false⟩

/-- The files that went over. -/
def succeeded (log : Log) : List Task := (log.outcomes.filter Prod.snd).map Prod.fst

/-- The files that did not. -/
def failed (log : Log) : List Task := (log.outcomes.filter fun o => !o.2).map Prod.fst

/-- The numbers of the files that came out one way or the other. -/
def decided (log : Log) : List Nat := log.outcomes.map fun o => o.1.idx

/-- How much the files weigh that went over, when one more has come out. -/
theorem weight_outcome (log : Log) (x : Task) (ok : Bool) :
    (({ log with outcomes := log.outcomes ++ [(x, ok)] } : Log).succeeded.map Task.size).sum =
      (log.succeeded.map Task.size).sum + if ok then x.size else 0 := by
  cases ok with
  | true => simp [succeeded, List.filter_append]
  | false => simp [succeeded, List.filter_append]

/-- A worker of a move or a copy has got from `w` to `w'`. -/
def work (log : Log) : Worker → Worker → Log
  | .idle, .measure n => { log with taken := log.taken ++ [n] }
  | .measure _, .announce task => { log with measured := log.measured ++ [task] }
  | .report task _, .idle => { log with reported := log.reported ++ [task.idx] }
  | _, .report task true => { log with outcomes := log.outcomes ++ [(task, true)] }
  | _, .fail task _ => { log with outcomes := log.outcomes ++ [(task, false)] }
  | _, _ => log

/-- A worker of a deletion has got from `w` to `w'`. -/
def erase (log : Log) : Remover → Remover → Log
  | .idle, .announce n => { log with taken := log.taken ++ [n] }
  | .count n, .idle => { log with reported := log.reported ++ [n] }
  | _, .count n => { log with outcomes := log.outcomes ++ [(⟨n, 0⟩, true)] }
  | _, .fail n _ => { log with outcomes := log.outcomes ++ [(⟨n, 0⟩, false)] }
  | _, _ => log

/-- A call of a move or a copy, made in the tree `t`, has got it from `r` to
`r'`. -/
def after (k : Kernel) (t : FileTree Bytes) (r : Runner) (e : Event) (r' : Runner) (log : Log) :
    Log :=
  match r.phase, e, r'.phase with
  | .walking, _, .checking l => { log with listed := some (l.files.length, l.dirs.length) }
  | .renaming _, _, .finished => { log with whole := true }
  | .making l n, .main f, .making _ _ =>
    match l.dirs[n]? with
    | some rel =>
      let df := target_path r.dst rel
      if (create_dir_all k t df (f.create_dir_all_at k t df (r.target_tail rel))).2.isNone then
        { log with dirs := log.dirs ++ [n] }
      else log
    | none => log
  | .working _ ws _ _, .worker i _, .working _ ws' _ _ =>
    match ws[i]?, ws'[i]? with
    | some w, some w' => log.work w w'
    | _, _ => log
  | .working _ _ _ _, _, .cleaning _ _ => { log with joined := true }
  | _, _, _ => log

/-- A call of a deletion has got it from `d` to `d'`. -/
def after_erase (d : Deleter) (e : Event) (d' : Deleter) (log : Log) : Log :=
  match d.phase, e, d'.phase with
  | .removing, _, .finished => { log with whole := d'.job.done_files = d.job.done_files + 1 }
  | .walking, _, .working r _ _ _ =>
    { log with listed := some (r.files.length, r.dirs.length) }
  | .working _ ws _ _, .worker i _, .working _ ws' _ _ =>
    match ws[i]?, ws'[i]? with
    | some w, some w' => log.erase w w'
    | _, _ => log
  | .working _ _ _ _, _, .clearing _ _ _ => { log with joined := true }
  | .emptying _ n failed, _, .clearing _ _ failed' =>
    if failed' = failed then { log with dirs := log.dirs ++ [n] } else log
  | _, _, _ => log

end Log

/-- A move or a copy with its log. An event comes with the tree it finds. -/
def logged (k : Kernel) (x : Runner × Log) (e : FileTree Bytes × Event) : Option (Runner × Log) :=
  (x.1.step k e.1 e.2).map fun y => (y.2, x.2.after k e.1 x.1 e.2 y.2)

/-- A deletion with its log. -/
def erasing (k : Kernel) (x : Deleter × Log) (e : FileTree Bytes × Event) :
    Option (Deleter × Log) :=
  (x.1.step k e.1 e.2).map fun y => (y.2, x.2.after_erase x.1 e.2 y.2)

/-! ## What the counters say -/

/-- What a look at the record shows at any time, and that no file is taken or
dealt with twice. -/
structure Counts (job : Job) (log : Log) : Prop where
  files : job.done_files ≤ job.total_files
  dirs : job.done_dirs ≤ job.total_dirs
  current : job.current.length ≤ 6
  taken : log.taken.Nodup
  decided : log.decided.Nodup

/-- What the record of a move or a copy shows once the workers have been joined:
every file was taken once and came out one way or the other, all are counted, and
the bytes are the sizes read for the files that went over, added up as `u64`. -/
structure Complete (job : Job) (log : Log) : Prop where
  taken : log.taken = List.range job.total_files
  measured : (log.measured.map Task.idx).Perm (List.range job.total_files)
  decided : log.decided.Perm (List.range job.total_files)
  read : ∀ o ∈ log.outcomes, o.1 ∈ log.measured
  files : job.done_files = job.total_files
  bytes : job.done_bytes = (log.succeeded.map Task.size).sum

/-- What the record of a deletion shows then. -/
structure Erased (job : Job) (log : Log) : Prop where
  taken : log.taken = List.range job.total_files
  decided : log.decided.Perm (List.range job.total_files)
  files : job.done_files + log.failed.length = job.total_files

/-! ## The workers of a move or a copy -/

namespace Worker

/-- The number of the file whose size the worker is about to read. -/
def unread : Worker → Option Nat
  | .measure n => some n
  | _ => none

/-- The number of the file that the worker has, and that has not come out. -/
def undecided : Worker → Option Nat
  | .measure n => some n
  | .announce x => some x.idx
  | .rename x => some x.idx
  | .copy x => some x.idx
  | .remove x => some x.idx
  | _ => none

/-- The task that the worker has. -/
def task : Worker → Option Task
  | .announce x => some x
  | .rename x => some x
  | .copy x => some x
  | .remove x => some x
  | .fail x _ => some x
  | .note x _ => some x
  | .report x _ => some x
  | _ => none

/-- The bytes that the worker is about to count. -/
def bytes : Worker → UInt64
  | .report x true => x.size
  | _ => 0

end Worker

/-- Nobody owes anything. -/
theorem owed_none {ws : List Worker} (h : ∀ w ∈ ws, w.bytes = 0) :
    (ws.map Worker.bytes).sum = 0 := by
  induction ws with
  | nil => rfl
  | cons w ws ih =>
      rw [List.map_cons, List.sum_cons, h w List.mem_cons_self, UInt64.zero_add]
      exact ih fun v hv => h v (List.mem_cons_of_mem w hv)

/-- The record and the log while the workers of a move or a copy are at it. -/
structure Tally (n : Nat) (ws : List Worker) (next : Nat) (job : Job) (log : Log) : Prop where
  read : Pool.Ledger Worker.unread .stopped n ws next (log.measured.map Task.idx)
  decided : Pool.Ledger Worker.undecided .stopped n ws next log.decided
  counted : Pool.Ledger Worker.idx .stopped n ws next log.reported
  taken : log.taken = List.range (min next n)
  files : job.done_files = log.reported.length
  bytes : job.done_bytes + (ws.map Worker.bytes).sum = (log.succeeded.map Task.size).sum
  known : ∀ w ∈ ws, ∀ x, w.task = some x → x ∈ log.measured
  known_outcomes : ∀ o ∈ log.outcomes, o.1 ∈ log.measured

section

variable {n : Nat} {ws : List Worker} {next i : Nat} {job job' : Job} {log : Log}
variable {w w' : Worker} {x : Task}

/-- A worker goes on with its task, and nothing comes of it yet. -/
theorem Tally.keep (h : Tally n ws next job log) (hw : ws[i]? = some w)
    (hr : w'.unread = w.unread) (hd : w'.undecided = w.undecided) (hc : w'.idx = w.idx)
    (hb : w'.bytes = w.bytes) (ht : w'.task = w.task) (hne : w' ≠ .stopped)
    (hf : job'.done_files = job.done_files) (hby : job'.done_bytes = job.done_bytes) :
    Tally n (ws.set i w') next job' log where
  read := h.read.keep hw hr hne
  decided := h.decided.keep hw hd hne
  counted := h.counted.keep hw hc hne
  taken := h.taken
  files := hf.trans h.files
  bytes := by
    have hsum := Pool.sum_set Worker.bytes w' hw
    have := h.bytes
    rw [hb] at hsum
    grind
  known := by
    intro v hv y hy
    rcases List.mem_or_eq_of_mem_set hv with hv | rfl
    · exact h.known v hv y hy
    · exact h.known w (List.mem_of_getElem? hw) y (ht ▸ hy)
  known_outcomes := h.known_outcomes

/-- The file of a worker comes out. -/
theorem Tally.decide (h : Tally n ws next job log) (ok : Bool) (hw : ws[i]? = some w)
    (hd : w.undecided = some x.idx) (hr : w.unread = none) (ht : w.task = some x)
    (hb : w.bytes = 0) (hr' : w'.unread = none) (hd' : w'.undecided = none)
    (hc : w'.idx = w.idx) (ht' : w'.task = some x) (hb' : w'.bytes = if ok then x.size else 0)
    (hne : w' ≠ .stopped) :
    Tally n (ws.set i w') next job { log with outcomes := log.outcomes ++ [(x, ok)] } where
  read := h.read.keep hw (hr'.trans hr.symm) hne
  decided := by
    have := h.decided.write hw hd hd' hne
    simpa [Log.decided] using this
  counted := h.counted.keep hw hc hne
  taken := h.taken
  files := h.files
  bytes := by
    have hsum := Pool.sum_set Worker.bytes w' hw
    have := h.bytes
    rw [hb, hb'] at hsum
    rw [Log.weight_outcome]
    grind
  known := by
    intro v hv y hy
    rcases List.mem_or_eq_of_mem_set hv with hv | rfl
    · exact h.known v hv y hy
    · exact h.known w (List.mem_of_getElem? hw) y (ht.trans (ht'.symm.trans hy))
  known_outcomes := by
    intro o ho
    rcases List.mem_append.mp ho with ho | ho
    · exact h.known_outcomes o ho
    · obtain rfl := List.mem_singleton.mp ho
      exact h.known w (List.mem_of_getElem? hw) x ht

/-- **A call of a worker** keeps the tally. -/
theorem Tally.work (h : Tally n ws next job log) {k : Kernel} {t : FileTree Bytes} {r : Runner}
    {l : Listing} {failed : Nat} {f : Fault} {y : FileTree Bytes × Job × Nat × Nat × Worker}
    (hl : l.files.length = n) (hjob : r.job = job) (hw : ws[i]? = some w)
    (hy : Runner.WorkCase k t r l next failed f w y) :
    Tally n (ws.set i y.2.2.2.2) y.2.2.1 y.2.1 (log.work w y.2.2.2.2) := by
  subst hjob
  cases hy with
  | drained hnone =>
      have hle : n ≤ next := hl ▸ List.getElem?_eq_none_iff.mp hnone
      refine ⟨h.read.drain hw rfl rfl hle, h.decided.drain hw rfl rfl hle,
        h.counted.drain hw rfl rfl hle, ?_, h.files, ?_, ?_, h.known_outcomes⟩
      -- `fetch_add` counts on past the end of the list; the log has only the numbers below it
      · have hmin : min (next + 1) n = min next n := by omega
        rw [hmin]
        exact h.taken
      · have hsum := Pool.sum_set Worker.bytes .stopped hw
        have := h.bytes
        simp only [Worker.bytes] at hsum
        show r.job.done_bytes + ((ws.set i .stopped).map Worker.bytes).sum
          = (log.succeeded.map Task.size).sum
        grind
      · intro v hv z hz
        rcases List.mem_or_eq_of_mem_set hv with hv | rfl
        · exact h.known v hv z hz
        · cases hz
  | taken g hg =>
      have hlt : next < n := hl ▸ (List.getElem?_eq_some_iff.mp hg).1
      refine ⟨h.read.take hw rfl rfl hlt (by simp), h.decided.take hw rfl rfl hlt (by simp),
        h.counted.take hw rfl rfl hlt (by simp), ?_, h.files, ?_, ?_, h.known_outcomes⟩
      · -- the counter hands the numbers out in order
        have hmin : min (next + 1) n = min next n + 1 := by omega
        have hnext : min next n = next := by omega
        show log.taken ++ [next] = _
        rw [hmin, List.range_succ, hnext, h.taken, hnext]
      · have hsum := Pool.sum_set Worker.bytes (.measure next) hw
        have := h.bytes
        simp only [Worker.bytes] at hsum
        show r.job.done_bytes + ((ws.set i (.measure next)).map Worker.bytes).sum
          = (log.succeeded.map Task.size).sum
        grind
      · intro v hv z hz
        rcases List.mem_or_eq_of_mem_set hv with hv | rfl
        · exact h.known v hv z hz
        · cases hz
  | measured idx sf rel hg =>
      refine ⟨?_, h.decided.keep hw rfl (by simp), h.counted.keep hw rfl (by simp), h.taken,
        h.files, ?_, ?_, ?_⟩
      -- the size joins the log with the number, and only the numbers are in the ledger
      · show Pool.Ledger _ _ n (ws.set i (.announce ⟨idx, _⟩)) next
          ((log.measured ++ [_]).map Task.idx)
        rw [List.map_append]
        exact h.read.write hw rfl rfl (by simp)
      · have hsum := Pool.sum_set Worker.bytes (.announce ⟨idx, Runner.file_size k t sf f⟩) hw
        have := h.bytes
        simp only [Worker.bytes] at hsum
        show r.job.done_bytes + ((ws.set i (.announce ⟨idx, _⟩)).map Worker.bytes).sum
          = (log.succeeded.map Task.size).sum
        grind
      · intro v hv z hz
        show z ∈ log.measured ++ [_]
        rcases List.mem_or_eq_of_mem_set hv with hv | rfl
        · exact List.mem_append_left _ (h.known v hv z hz)
        · cases hz
          exact List.mem_append_right _ List.mem_cons_self
      · intro o ho
        exact List.mem_append_left _ (h.known_outcomes o ho)
  | announced task sf rel hg =>
      -- whichever call comes first, nothing is decided before its answer
      by_cases hfirst : r.op = .move ∧ r.same_drive = true
      · simp only [Runner.first, hfirst]
        exact h.keep hw rfl rfl rfl rfl rfl (by simp) rfl rfl
      · simp only [Runner.first, hfirst]
        exact h.keep hw rfl rfl rfl rfl rfl (by simp) rfl rfl
  | renamed task sf rel t' hg hr =>
      exact h.decide true hw rfl rfl rfl rfl rfl rfl rfl rfl rfl (by simp)
  | unrenamed task sf rel e hg hr =>
      -- a rename that falls back decides nothing: the copy that follows does
      by_cases hfb : falls_back e = true
      · simp only [hfb, if_true]
        exact h.keep hw rfl rfl rfl rfl rfl (by simp) rfl rfl
      · simp only [hfb]
        exact h.decide false hw rfl rfl rfl rfl rfl rfl rfl rfl rfl (by simp)
  | copied task sf rel t' m hg hcp =>
      -- of a move, what was copied has still to be removed
      by_cases hop : r.op = .move
      · simp only [hop, if_true]
        exact h.keep hw rfl rfl rfl rfl rfl (by simp) rfl rfl
      · simp only [hop, if_false]
        exact h.decide true hw rfl rfl rfl rfl rfl rfl rfl rfl rfl (by simp)
  | uncopied task sf rel t' e hg hcp =>
      exact h.decide false hw rfl rfl rfl rfl rfl rfl rfl rfl rfl (by simp)
  | removed task sf rel t' hg hr =>
      exact h.decide true hw rfl rfl rfl rfl rfl rfl rfl rfl rfl (by simp)
  | unremoved task sf rel e hg hr =>
      exact h.decide false hw rfl rfl rfl rfl rfl rfl rfl rfl rfl (by simp)
  | failed task err => exact h.keep hw rfl rfl rfl rfl rfl (by simp) rfl rfl
  | noted task err e => exact h.keep hw rfl rfl rfl rfl rfl (by simp) rfl rfl
  | reported task ok =>
      refine ⟨h.read.keep hw rfl (by simp), h.decided.keep hw rfl (by simp),
        h.counted.write hw rfl rfl (by simp), h.taken, ?_, ?_, ?_, h.known_outcomes⟩
      · show r.job.done_files + 1 = (log.reported ++ [task.idx]).length
        rw [List.length_append, h.files]
        rfl
      · have hsum := Pool.sum_set Worker.bytes .idle hw
        have := h.bytes
        show (r.job.count_file ok task.size).done_bytes + ((ws.set i .idle).map Worker.bytes).sum
          = (log.succeeded.map Task.size).sum
        -- the bytes that were owed for the task are now in the record, or were never owed
        cases ok with
        | true =>
            simp only [Worker.bytes] at hsum
            simp only [Job.count_file, if_true]
            grind
        | false =>
            simp only [Worker.bytes] at hsum
            simp only [Job.count_file, Bool.false_eq_true, if_false]
            grind
      · intro v hv z hz
        rcases List.mem_or_eq_of_mem_set hv with hv | rfl
        · exact h.known v hv z hz
        · cases hz

end

/-! ## The run of a move or a copy -/

theorem Job.push_current_length {j : Job} (p : Path) (h : j.current.length ≤ 6) :
    (j.push_current p).current.length ≤ 6 := by
  unfold push_current
  dsimp only
  split
  · rw [List.length_drop, List.length_append, List.length_singleton]
    omega
  · omega

/-- The log of a job whose workers have not been started. -/
def Log.early (log : Log) : Prop :=
  log.taken = [] ∧ log.measured = [] ∧ log.outcomes = [] ∧ log.reported = [] ∧ log.joined = false

/-- No file has been counted. -/
def Job.fresh (j : Job) : Prop := j.done_files = 0 ∧ j.done_bytes = 0

/-- What holds of the record and the log in each phase. -/
def TalliedAt (job : Job) (log : Log) : Phase → Prop
  | .queued => job.fresh ∧ job.done_dirs = 0 ∧ log.early
  | .walking => job.fresh ∧ job.done_dirs = 0 ∧ log.early
  | .checking l => job.fresh ∧ job.done_dirs = 0 ∧ log.early ∧
      job.total_files = l.files.length ∧ job.total_dirs = l.dirs.length
  | .renaming l => job.fresh ∧ job.done_dirs = 0 ∧ log.early ∧
      job.total_files = l.files.length ∧ job.total_dirs = l.dirs.length
  | .making l m => job.fresh ∧ log.early ∧ job.done_dirs ≤ m ∧ m ≤ l.dirs.length ∧
      job.total_files = l.files.length ∧ job.total_dirs = l.dirs.length
  | .working l ws next _ => Tally l.files.length ws next job log ∧ log.joined = false ∧
      job.total_files = l.files.length ∧ job.done_dirs ≤ job.total_dirs
  | _ => Counts job log ∧ (log.joined = true → Complete job log)

/-- The invariant of a move or a copy with its log. -/
structure Tallied (x : Runner × Log) : Prop where
  crew : 0 < x.1.nthreads
  current : x.1.job.current.length ≤ 6
  phase : TalliedAt x.1.job x.2 x.1.phase

theorem tallied_start (h : Host) (op : Op) (src dst : PathBuf) :
    Tallied (spawn h op src dst, .empty) :=
  ⟨h.nthreads_pos, Nat.zero_le _, ⟨rfl, rfl⟩, rfl, rfl, rfl, rfl, rfl, rfl⟩

theorem Tally.counts {n : Nat} {ws : List Worker} {next : Nat} {job : Job} {log : Log}
    (h : Tally n ws next job log) (ht : job.total_files = n) (hd : job.done_dirs ≤ job.total_dirs)
    (hc : job.current.length ≤ 6) : Counts job log where
  files := by
    rw [h.files, ht]
    exact h.counted.length_le
  dirs := hd
  current := hc
  taken := by
    rw [h.taken]
    exact List.nodup_range
  decided := h.decided.nodup

/-- The workers have been joined. -/
theorem Tally.over {n : Nat} {ws : List Worker} {next : Nat} {job : Job} {log log' : Log}
    (h : Tally n ws next job log) (ht : job.total_files = n) (hall : ∀ w ∈ ws, w = .stopped)
    (hlog : log' = { log with joined := true }) : Complete job log' := by
  subst hlog
  obtain ⟨hle, hread⟩ := h.read.over rfl hall
  obtain ⟨-, hdecided⟩ := h.decided.over rfl hall
  obtain ⟨-, hcounted⟩ := h.counted.over rfl hall
  have hzero : (ws.map Worker.bytes).sum = 0 := owed_none fun w hw => by
    rw [hall w hw]
    rfl
  refine ⟨?_, ?_, ?_, h.known_outcomes, ?_, ?_⟩
  · show log.taken = _
    rw [h.taken, ht, Nat.min_eq_right hle]
  · rw [ht]
    exact hread
  · rw [ht]
    exact hdecided
  · rw [h.files, ht, hcounted.length_eq, List.length_range]
  · have := h.bytes
    show job.done_bytes = (log.succeeded.map Task.size).sum
    grind

theorem TalliedAt.counts {job : Job} {log : Log} {p : Phase} (h : TalliedAt job log p)
    (hc : job.current.length ≤ 6) : Counts job log ∧ (log.joined = true → Complete job log) := by
  have hearly : job.fresh → log.early → job.done_dirs ≤ job.total_dirs →
      Counts job log ∧ (log.joined = true → Complete job log) := by
    rintro ⟨hf, -⟩ ⟨ht, -, ho, -, hj⟩ hd
    refine ⟨⟨by omega, hd, hc, ?_, ?_⟩, fun hjoined => ?_⟩
    · rw [ht]
      exact List.nodup_nil
    · rw [Log.decided, ho]
      exact List.nodup_nil
    · rw [hj] at hjoined
      cases hjoined
  match p, h with
  | .queued, h => exact hearly h.1 h.2.2 (by have := h.2.1; omega)
  | .walking, h => exact hearly h.1 h.2.2 (by have := h.2.1; omega)
  | .checking l, h => exact hearly h.1 h.2.2.1 (by have := h.2.1; omega)
  | .renaming l, h => exact hearly h.1 h.2.2.1 (by have := h.2.1; omega)
  | .making l m, h =>
      obtain ⟨hf, he, hd, hm, -, ht⟩ := h
      exact hearly hf he (by omega)
  | .working l ws next failed, h =>
      obtain ⟨htally, hj, ht, hd⟩ := h
      refine ⟨htally.counts ht hd hc, fun hjoined => ?_⟩
      rw [hj] at hjoined
      cases hjoined
  | .cleaning l failed, h => exact h
  | .ending, h => exact h
  | .finished, h => exact h

theorem work_totals {k : Kernel} {t : FileTree Bytes} {r : Runner} {l : Listing}
    {next failed : Nat} {f : Fault} {w : Worker} {y : FileTree Bytes × Job × Nat × Nat × Worker}
    (h : Runner.WorkCase k t r l next failed f w y) :
    y.2.1.total_files = r.job.total_files ∧ y.2.1.total_dirs = r.job.total_dirs ∧
      y.2.1.done_dirs = r.job.done_dirs ∧
      (r.job.current.length ≤ 6 → y.2.1.current.length ≤ 6) := by
  cases h with
  | announced task sf rel hg => exact ⟨rfl, rfl, rfl, Job.push_current_length sf⟩
  | _ => exact ⟨rfl, rfl, rfl, id⟩

/-- What a call adds to the log changes nothing the tally looks at, but for the
calls of workers and for the join. -/
theorem tallied_step {k : Kernel} {x x' : Runner × Log} {e : FileTree Bytes × Event}
    (h : Tallied x) (hs : logged k x e = some x') : Tallied x' := by
  obtain ⟨r, log⟩ := x
  obtain ⟨t, ev⟩ := e
  obtain ⟨hcrew, hcur, hat⟩ := h
  dsimp only at hcrew hcur hat
  obtain ⟨y, hy, rfl⟩ := Option.map_eq_some_iff.mp hs
  dsimp only at hy
  have hcounts := hat.counts hcur
  cases Runner.step_cases hy with
  | started f hp =>
      rw [hp] at hat
      refine ⟨hcrew, hcur, ?_⟩
      simp only [Log.after, hp]
      exact hat
  -- nothing has been counted yet, and the workers were never started, so there is nothing to
  -- show about the join
  | unwalked ev e' hp =>
      refine ⟨hcrew, hcur, ?_⟩
      have hlog : log.after k t r ev
          { r with phase := .finished, job := r.job.failed_with (.io e') } = log := by
        simp only [Log.after, hp]
      show TalliedAt _ (log.after k t r ev _) .finished
      rw [hlog]
      refine ⟨⟨hcounts.1.files, hcounts.1.dirs, hcur, hcounts.1.taken, hcounts.1.decided⟩, ?_⟩
      rw [hp] at hat
      -- the pool is not joined before the walk is over
      intro hj
      rw [hat.2.2.2.2.2.2] at hj
      cases hj
  | walked fuel l hp hw =>
      rw [hp] at hat
      obtain ⟨hf, hd, he⟩ := hat
      refine ⟨hcrew, hcur, ?_⟩
      simp only [Log.after, hp]
      exact ⟨hf, hd, he, rfl, rfl⟩
  | checked_fast f l hp hop hsd hx =>
      rw [hp] at hat
      refine ⟨hcrew, hcur, ?_⟩
      simpa [Log.after, hp, TalliedAt] using hat
  | checked_slow f l hp =>
      rw [hp] at hat
      obtain ⟨hf, hd, he, ht⟩ := hat
      refine ⟨hcrew, hcur, ?_⟩
      simp only [Log.after, hp]
      exact ⟨hf, he, Nat.le_of_eq hd, Nat.zero_le _, ht⟩
  -- `all_done` sets the counts to the totals, whatever they were before
  | renamed_tree f l t' hp hr =>
      rw [hp] at hat
      obtain ⟨hf, hd, he, ht⟩ := hat
      refine ⟨hcrew, hcur, ?_⟩
      simp only [Log.after, hp]
      refine ⟨⟨Nat.le_refl _, Nat.le_refl _, hcur, hcounts.1.taken, hcounts.1.decided⟩, ?_⟩
      intro hj
      cases (show log.joined = true from hj).symm.trans he.2.2.2.2
  | unrenamed_tree f l hp =>
      rw [hp] at hat
      obtain ⟨hf, hd, he, ht⟩ := hat
      refine ⟨hcrew, hcur, ?_⟩
      simp only [Log.after, hp]
      exact ⟨hf, he, Nat.le_of_eq hd, Nat.zero_le _, ht⟩
  | made f l m rel hp hn =>
      rw [hp] at hat
      obtain ⟨hf, he, hd, hm, ht⟩ := hat
      have hlt := (List.getElem?_eq_some_iff.mp hn).1
      -- the source counts a directory only where `create_dir_all` made it, and goes on either
      -- way
      by_cases hok : (create_dir_all k t (r.dst.down rel)
          (f.create_dir_all_at k t (r.dst.down rel) (r.target_tail rel))).2.isNone = true
      · simp only [Log.after, hp, hn, target_path_eq, hok, if_true]
        refine ⟨hcrew, Job.push_current_length _ hcur, hf, he, ?_, hlt, ht⟩
        exact Nat.succ_le_succ hd
      · simp only [Log.after, hp, hn, target_path_eq, hok]
        exact ⟨hcrew, hcur, hf, he, Nat.le_succ_of_le hd, hlt, ht⟩
  | spawned f l m hp hn =>
      rw [hp] at hat
      obtain ⟨⟨hf, hb⟩, ⟨h₁, h₂, h₃, h₄, h₅⟩, hd, hm, ht, htd⟩ := hat
      refine ⟨hcrew, hcur, ?_⟩
      simp only [Log.after, hp]
      refine ⟨⟨?_, ?_, ?_, ?_, ?_, ?_, ?_, ?_⟩, h₅, ht, by omega⟩
      -- the three ledgers start with every worker idle and nothing handed out
      · rw [h₂]
        exact .start hcrew rfl (by simp)
      · rw [Log.decided, h₃]
        exact .start hcrew rfl (by simp)
      · rw [h₄]
        exact .start hcrew rfl (by simp)
      · simpa using h₁
      · rw [hf, h₄]
        rfl
      · have hzero : ((List.replicate r.nthreads Worker.idle).map Worker.bytes).sum = 0 :=
          owed_none fun w hw => by
            rw [List.eq_of_mem_replicate hw]
            rfl
        rw [hzero, hb, Log.succeeded, h₃]
        rfl
      · intro w hw z hz
        rw [List.eq_of_mem_replicate hw] at hz
        cases hz
      · rw [h₃]
        simp
  | worked i f l ws next failed worker y hp hw hy' =>
      rw [hp] at hat
      obtain ⟨htally, hj, ht, hd⟩ := hat
      obtain ⟨h₁, h₂, h₃, h₄⟩ := work_totals hy'
      have hset : (ws.set i y.2.2.2.2)[i]? = some y.2.2.2.2 := Pool.set_self hw
      refine ⟨hcrew, h₄ hcur, ?_⟩
      simp only [Log.after, hp, hw, hset]
      refine ⟨htally.work rfl rfl hw hy', ?_, ?_, ?_⟩
      · -- what the workers do does not join them
        rw [← hj]
        unfold Log.work
        split <;> rfl
      · exact h₁.trans ht
      · show y.2.1.done_dirs ≤ y.2.1.total_dirs
        omega
  | joined f l ws next failed hp hws =>
      rw [hp] at hat
      obtain ⟨htally, hj, ht, hd⟩ := hat
      refine ⟨hcrew, hcur, ?_⟩
      simp only [Log.after, hp]
      -- all workers have stopped: the ledgers hold every number there is
      have hc := htally.counts ht hd hcur
      exact ⟨⟨hc.files, hc.dirs, hc.current, hc.taken, hc.decided⟩,
        fun _ => htally.over ht hws rfl⟩
  | cleaned f l hp hop =>
      rw [hp] at hat
      refine ⟨hcrew, hcur, ?_⟩
      simpa [Log.after, hp, TalliedAt] using hat
  | kept f l failed hp hnc =>
      rw [hp] at hat
      refine ⟨hcrew, hcur, ?_⟩
      simpa [Log.after, hp, TalliedAt] using hat
  | ended f hp =>
      rw [hp] at hat
      obtain ⟨hc, hj⟩ := hat
      refine ⟨hcrew, hcur, ?_⟩
      simp only [Log.after, hp]
      refine ⟨⟨hc.files, hc.dirs, hc.current, hc.taken, hc.decided⟩, fun h => ?_⟩
      have := hj h
      exact ⟨this.taken, this.measured, this.decided, this.read, this.files, this.bytes⟩

/-! ## The workers and the run of a deletion -/

namespace Remover

/-- The number of the file that the worker has, and that has not come out. -/
def undecided : Remover → Option Nat
  | .announce n => some n
  | .remove n => some n
  | _ => none

/-- Whether the worker is about to count a file as removed. -/
def counting : Remover → Nat
  | .count _ => 1
  | _ => 0

end Remover

/-- The record and the log while the workers of a deletion are at it. -/
structure Sweep (n : Nat) (ws : List Remover) (next : Nat) (job : Job) (log : Log) : Prop where
  decided : Pool.Ledger Remover.undecided .stopped n ws next log.decided
  taken : log.taken = List.range (min next n)
  files : job.done_files + (ws.map Remover.counting).sum = log.succeeded.length

theorem Log.outcomes_length (log : Log) :
    log.succeeded.length + log.failed.length = log.decided.length := by
  simp only [Log.succeeded, Log.failed, Log.decided, List.length_map]
  induction log.outcomes with
  | nil => rfl
  | cons o os ih =>
      cases ho : o.2 with
      | true =>
          simp only [List.filter_cons, ho, if_true, Bool.not_true, List.length_cons]
          simp
          omega
      | false =>
          simp only [List.filter_cons, ho, Bool.not_false, if_true, List.length_cons]
          simp
          omega

section

variable {n : Nat} {ws : List Remover} {next i : Nat} {job : Job} {log : Log} {w : Remover}

/-- **A call of a worker of a deletion** keeps the tally. -/
theorem Sweep.work (h : Sweep n ws next job log) {k : Kernel} {t : FileTree Bytes} {d : Deleter}
    {r : Removals} {failed : Nat} {f : Fault} {y : FileTree Bytes × Job × Nat × Nat × Remover}
    (hr : r.files.length = n) (hjob : d.job = job) (hw : ws[i]? = some w)
    (hy : Deleter.WorkCase k t d r next failed f w y) :
    Sweep n (ws.set i y.2.2.2.2) y.2.2.1 y.2.1 (log.erase w y.2.2.2.2) := by
  subst hjob
  -- unlike a transfer, a deletion counts only what it has removed, so a worker that is about
  -- to count owes one
  have hsum := fun v => Pool.sum_set Remover.counting v hw
  have hfiles := h.files
  cases hy with
  | drained hnone =>
      have hle : n ≤ next := hr ▸ List.getElem?_eq_none_iff.mp hnone
      refine ⟨h.decided.drain hw rfl rfl hle, ?_, ?_⟩
      · have hmin : min (next + 1) n = min next n := by omega
        rw [hmin]
        exact h.taken
      · have := hsum .stopped
        simp only [Remover.counting] at this
        show d.job.done_files + ((ws.set i .stopped).map Remover.counting).sum
          = log.succeeded.length
        omega
  | taken p hp =>
      have hlt : next < n := hr ▸ (List.getElem?_eq_some_iff.mp hp).1
      refine ⟨h.decided.take hw rfl rfl hlt (by simp), ?_, ?_⟩
      · have hmin : min (next + 1) n = min next n + 1 := by omega
        have hnext : min next n = next := by omega
        show log.taken ++ [next] = _
        rw [hmin, List.range_succ, hnext, h.taken, hnext]
      · have := hsum (.announce next)
        simp only [Remover.counting] at this
        show d.job.done_files + ((ws.set i (.announce next)).map Remover.counting).sum
          = log.succeeded.length
        omega
  | announced idx p hp =>
      refine ⟨h.decided.keep hw rfl (by simp), h.taken, ?_⟩
      have := hsum (.remove idx)
      simp only [Remover.counting] at this
      show d.job.done_files + ((ws.set i (.remove idx)).map Remover.counting).sum
        = log.succeeded.length
      omega
  | removed idx p t' hp hrm =>
      refine ⟨?_, h.taken, ?_⟩
      · show Pool.Ledger _ _ n (ws.set i (.count idx)) next _
        simp only [Log.decided, Log.erase, List.map_append]
        exact h.decided.write hw rfl rfl (by simp)
      · have := hsum (.count idx)
        simp only [Remover.counting] at this
        show d.job.done_files + ((ws.set i (.count idx)).map Remover.counting).sum
          = (log.erase (.remove idx) (.count idx)).succeeded.length
        -- what was removed is decided and a success
        have hlen : (log.erase (.remove idx) (.count idx)).succeeded.length
            = log.succeeded.length + 1 := by
          simp [Log.erase, Log.succeeded, List.filter_append]
        omega
  | unremoved idx p e hp hrm =>
      refine ⟨?_, h.taken, ?_⟩
      · show Pool.Ledger _ _ n (ws.set i (.fail idx e)) next _
        simp only [Log.decided, Log.erase, List.map_append]
        exact h.decided.write hw rfl rfl (by simp)
      · have := hsum (.fail idx e)
        simp only [Remover.counting] at this
        show d.job.done_files + ((ws.set i (.fail idx e)).map Remover.counting).sum
          = (log.erase (.remove idx) (.fail idx e)).succeeded.length
        -- what was not removed is decided as well, but no success
        have hlen : (log.erase (.remove idx) (.fail idx e)).succeeded.length
            = log.succeeded.length := by
          simp [Log.erase, Log.succeeded, List.filter_append]
        omega
  | counted idx =>
      refine ⟨h.decided.keep hw rfl (by simp), h.taken, ?_⟩
      have := hsum .idle
      simp only [Remover.counting] at this
      show d.job.done_files + 1 + ((ws.set i .idle).map Remover.counting).sum
        = log.succeeded.length
      omega
  | failed idx e =>
      refine ⟨h.decided.keep hw rfl (by simp), h.taken, ?_⟩
      have := hsum (.note idx e)
      simp only [Remover.counting] at this
      show d.job.done_files + ((ws.set i (.note idx e)).map Remover.counting).sum
        = log.succeeded.length
      omega
  | noted idx p e hp =>
      refine ⟨h.decided.keep hw rfl (by simp), h.taken, ?_⟩
      have := hsum .idle
      simp only [Remover.counting] at this
      show d.job.done_files + ((ws.set i .idle).map Remover.counting).sum
        = log.succeeded.length
      omega

theorem Sweep.counts (h : Sweep n ws next job log) (ht : job.total_files = n)
    (hd : job.done_dirs ≤ job.total_dirs) (hc : job.current.length ≤ 6) : Counts job log where
  files := by
    have := h.files
    have := h.decided.length_le
    have := log.outcomes_length
    omega
  dirs := hd
  current := hc
  taken := by
    rw [h.taken]
    exact List.nodup_range
  decided := h.decided.nodup

theorem Sweep.over {log' : Log} (h : Sweep n ws next job log) (ht : job.total_files = n)
    (hall : ∀ w ∈ ws, w = .stopped) (hlog : log' = { log with joined := true }) :
    Erased job log' := by
  subst hlog
  obtain ⟨hle, hdecided⟩ := h.decided.over rfl hall
  have hzero : (ws.map Remover.counting).sum = 0 := by
    rw [List.sum_eq_zero_iff_forall_eq_nat]
    intro b hb
    obtain ⟨w, hw, rfl⟩ := List.mem_map.mp hb
    rw [hall w hw]
    rfl
  refine ⟨?_, ?_, ?_⟩
  · show log.taken = _
    rw [h.taken, ht, Nat.min_eq_right hle]
  · rw [ht]
    exact hdecided
  · have h₁ := h.files
    have h₂ := log.outcomes_length
    have h₃ := hdecided.length_eq
    rw [List.length_range] at h₃
    show job.done_files + log.failed.length = job.total_files
    omega

end

/-- What holds of the record and the log of a deletion in each phase. -/
def SweptAt (job : Job) (log : Log) : Clearing → Prop
  | .working r ws next _ => Sweep r.files.length ws next job log ∧ log.joined = false ∧
      job.total_files = r.files.length ∧ job.total_dirs = r.dirs.length ∧ job.done_dirs = 0
  | .clearing _ n _ => Counts job log ∧ Erased job log ∧ job.done_dirs + n ≤ job.total_dirs
  | .emptying _ n _ => Counts job log ∧ Erased job log ∧ job.done_dirs + (n + 1) ≤ job.total_dirs
  | .finished => Counts job log ∧ (log.joined = true → Erased job log)
  | _ => job.fresh ∧ job.done_dirs = 0 ∧ log.early

/-- The invariant of a deletion with its log. -/
structure Swept (x : Deleter × Log) : Prop where
  crew : 0 < x.1.nthreads
  current : x.1.job.current.length ≤ 6
  phase : SweptAt x.1.job x.2 x.1.phase

theorem swept_start (h : Host) (src : PathBuf) : Swept (Deleter.start h src, .empty) :=
  ⟨h.nthreads_pos, Nat.zero_le _, ⟨rfl, rfl⟩, rfl, rfl, rfl, rfl, rfl, rfl⟩

/-- Before the workers start nothing is counted. -/
theorem counts_of_early {job : Job} {log : Log} (hf : job.done_files ≤ job.total_files)
    (hd : job.done_dirs ≤ job.total_dirs) (hc : job.current.length ≤ 6) (he : log.early) :
    Counts job log := by
  obtain ⟨ht, -, ho, -, -⟩ := he
  refine ⟨hf, hd, hc, ?_, ?_⟩
  · rw [ht]
    exact List.nodup_nil
  · rw [Log.decided, ho]
    exact List.nodup_nil

theorem SweptAt.counts {job : Job} {log : Log} {p : Clearing} (h : SweptAt job log p)
    (hc : job.current.length ≤ 6) : Counts job log ∧ (log.joined = true → Erased job log) := by
  have hearly : job.fresh ∧ job.done_dirs = 0 ∧ log.early →
      Counts job log ∧ (log.joined = true → Erased job log) := by
    rintro ⟨⟨hf, -⟩, hd, he⟩
    refine ⟨counts_of_early (by omega) (by omega) hc he, fun hj => ?_⟩
    rw [he.2.2.2.2] at hj
    cases hj
  cases p with
  | working r ws next failed =>
      obtain ⟨hsweep, hj, ht, htd, hd⟩ := h
      refine ⟨hsweep.counts ht (by omega) hc, fun hjoined => ?_⟩
      rw [hj] at hjoined
      cases hjoined
  | clearing r n failed => exact ⟨h.1, fun _ => h.2.1⟩
  | emptying r n failed => exact ⟨h.1, fun _ => h.2.1⟩
  | finished => exact h
  | queued => exact hearly h
  | checking => exact hearly h
  | removing => exact hearly h
  | walking => exact hearly h

theorem erase_totals {k : Kernel} {t : FileTree Bytes} {d : Deleter} {r : Removals}
    {next failed : Nat} {f : Fault} {w : Remover} {y : FileTree Bytes × Job × Nat × Nat × Remover}
    (h : Deleter.WorkCase k t d r next failed f w y) :
    y.2.1.total_files = d.job.total_files ∧ y.2.1.total_dirs = d.job.total_dirs ∧
      y.2.1.done_dirs = d.job.done_dirs ∧
      (d.job.current.length ≤ 6 → y.2.1.current.length ≤ 6) := by
  cases h with
  | announced idx p hp => exact ⟨rfl, rfl, rfl, Job.push_current_length p⟩
  | _ => exact ⟨rfl, rfl, rfl, id⟩

theorem swept_step {k : Kernel} {x x' : Deleter × Log} {e : FileTree Bytes × Event}
    (h : Swept x) (hs : erasing k x e = some x') : Swept x' := by
  obtain ⟨d, log⟩ := x
  obtain ⟨t, ev⟩ := e
  obtain ⟨hcrew, hcur, hat⟩ := h
  dsimp only at hcrew hcur hat
  obtain ⟨y, hy, rfl⟩ := Option.map_eq_some_iff.mp hs
  dsimp only at hy
  have hcounts := hat.counts hcur
  -- a deletion that ends early has counted nothing
  have hends : ∀ (job : Job), job.done_files ≤ job.total_files → job.done_dirs ≤ job.total_dirs →
      job.current.length ≤ 6 → d.job.fresh ∧ d.job.done_dirs = 0 ∧ log.early →
      ∀ log' : Log, log'.taken = log.taken → log'.outcomes = log.outcomes →
        log'.joined = log.joined → SweptAt job log' .finished := by
    intro job hf hd hc hat log' htaken hout hjoined
    obtain ⟨-, -, ht, hm, ho, hrep, hj⟩ := hat
    refine ⟨⟨hf, hd, hc, ?_, ?_⟩, fun h => ?_⟩
    · rw [htaken, ht]
      exact List.nodup_nil
    · rw [Log.decided, hout, ho]
      exact List.nodup_nil
    · rw [hjoined, hj] at h
      cases h
  cases Deleter.step_cases hy with
  | started f hp =>
      rw [hp] at hat
      refine ⟨hcrew, hcur, ?_⟩
      simp only [Log.after_erase, hp]
      exact hat
  | single f hp hc =>
      rw [hp] at hat
      refine ⟨hcrew, hcur, ?_⟩
      simp only [Log.after_erase, hp]
      exact hat
  | many f hp hc =>
      rw [hp] at hat
      refine ⟨hcrew, hcur, ?_⟩
      simp only [Log.after_erase, hp]
      exact hat
  | removed f t' hp hr =>
      rw [hp] at hat
      refine ⟨hcrew, hcur, ?_⟩
      simp only [Log.after_erase, hp]
      refine hends { d.job with
        done_files := d.job.done_files + 1, total_files := 1, status := .done } ?_
        hcounts.1.dirs hcur hat _ rfl rfl rfl
      have hzero := hat.1.1
      show d.job.done_files + 1 ≤ 1
      omega
  | unremoved f e' hp hr =>
      rw [hp] at hat
      refine ⟨hcrew, hcur, ?_⟩
      simp only [Log.after_erase, hp]
      exact hends (d.job.failed_with (.io e')) hcounts.1.files hcounts.1.dirs hcur hat _ rfl rfl rfl
  | walked fuel r hp hw =>
      rw [hp] at hat
      obtain ⟨⟨hf, hb⟩, hd, h₁, h₂, h₃, h₄, h₅⟩ := hat
      refine ⟨hcrew, hcur, ?_⟩
      simp only [Log.after_erase, hp]
      refine ⟨⟨?_, ?_, ?_⟩, h₅, rfl, rfl, hd⟩
      · rw [Log.decided, h₃]
        exact .start hcrew rfl (by simp)
      · simpa using h₁
      · show d.job.done_files + _ = _
        simp [Remover.counting, Log.succeeded, h₃, hf]
  | unwalked fuel e' hp hw =>
      rw [hp] at hat
      refine ⟨hcrew, hcur, ?_⟩
      simp only [Log.after_erase, hp]
      exact hends (d.job.failed_with (.io e')) hcounts.1.files hcounts.1.dirs hcur hat _ rfl rfl rfl
  | hindered f e' hp hf =>
      rw [hp] at hat
      refine ⟨hcrew, hcur, ?_⟩
      simp only [Log.after_erase, hp]
      exact hends (d.job.failed_with (.io e')) hcounts.1.files hcounts.1.dirs hcur hat _ rfl rfl rfl
  | worked i f r ws next failed worker y hp hw hy' =>
      rw [hp] at hat
      obtain ⟨hsweep, hj, ht, htd, hd⟩ := hat
      obtain ⟨h₁, h₂, h₃, h₄⟩ := erase_totals hy'
      have hset : (ws.set i y.2.2.2.2)[i]? = some y.2.2.2.2 := Pool.set_self hw
      refine ⟨hcrew, h₄ hcur, ?_⟩
      simp only [Log.after_erase, hp, hw, hset]
      refine ⟨hsweep.work rfl rfl hw hy', ?_, h₁.trans ht, h₂.trans htd, h₃.trans hd⟩
      rw [← hj]
      unfold Log.erase
      split <;> rfl
  | joined f r ws next failed hp hws =>
      rw [hp] at hat
      obtain ⟨hsweep, hj, ht, htd, hd⟩ := hat
      refine ⟨hcrew, hcur, ?_⟩
      simp only [Log.after_erase, hp]
      have hc := hsweep.counts ht (by omega) hcur
      refine ⟨⟨hc.files, hc.dirs, hc.current, hc.taken, hc.decided⟩,
        hsweep.over ht hws rfl, ?_⟩
      show d.job.done_dirs + r.dirs.length ≤ d.job.total_dirs
      omega
  | announced f r n failed p hp hn =>
      rw [hp] at hat
      obtain ⟨hc, he, hd⟩ := hat
      have hcur' := Job.push_current_length p hcur
      refine ⟨hcrew, hcur', ?_⟩
      simp only [Log.after_erase, hp]
      exact ⟨⟨hc.files, hc.dirs, hcur', hc.taken, hc.decided⟩,
        ⟨he.taken, he.decided, he.files⟩, hd⟩
  | cleared f r n failed p t' hp hn hr =>
      rw [hp] at hat
      obtain ⟨hc, he, hd⟩ := hat
      refine ⟨hcrew, hcur, ?_⟩
      simp only [Log.after_erase, hp, if_true]
      refine ⟨⟨hc.files, ?_, hcur, hc.taken, hc.decided⟩, ⟨he.taken, he.decided, he.files⟩, ?_⟩
      · show d.job.done_dirs + 1 ≤ d.job.total_dirs
        omega
      · show d.job.done_dirs + 1 + n ≤ d.job.total_dirs
        omega
  | uncleared f r n failed p e' hp hn hr =>
      rw [hp] at hat
      obtain ⟨hc, he, hd⟩ := hat
      refine ⟨hcrew, hcur, ?_⟩
      simp only [Log.after_erase, hp, Nat.succ_ne_self, if_false]
      exact ⟨hc, he, by omega⟩
  | ended f r failed hp =>
      rw [hp] at hat
      obtain ⟨hc, he, hd⟩ := hat
      refine ⟨hcrew, hcur, ?_⟩
      simp only [Log.after_erase, hp]
      exact ⟨⟨hc.files, hc.dirs, hcur, hc.taken, hc.decided⟩,
        fun _ => ⟨he.taken, he.decided, he.files⟩⟩

/-! ## The counters are exact -/

/-- **The counters are exact**, whatever the walk lists, however many workers
there are and however they take turns, whichever calls fail, and whatever else
happens to the tree. No file is taken or dealt with twice; a look at the record
never shows more done than there is, nor more than six paths; and once the
workers have been joined, each file has been taken once and has come out once,
the files and the bytes of a move or a copy add up, and so do the files of a
deletion and those it could not remove. -/
theorem counters_exact (k : Kernel) (h : Host) :
    (∀ (op : Op) (src dst : PathBuf) (x : Runner × Log),
      Reach (logged k) Any (spawn h op src dst, .empty) x →
      Counts x.1.job x.2 ∧ (x.2.joined = true → Complete x.1.job x.2)) ∧
    ∀ (src : PathBuf) (x : Deleter × Log),
      Reach (erasing k) Any (Deleter.start h src, .empty) x →
      Counts x.1.job x.2 ∧ (x.2.joined = true → Erased x.1.job x.2) := by
  refine ⟨fun op src dst x hx => ?_, fun src x hx => ?_⟩
  · have hinv : Tallied x := hx.inv (tallied_start h op src dst)
      fun _ _ _ h _ hs => tallied_step h hs
    exact hinv.phase.counts hinv.current
  · have hinv : Swept x := hx.inv (swept_start h src) fun _ _ _ h _ hs => swept_step h hs
    exact hinv.phase.counts hinv.current

/-- Two processors, and no mounts. -/
def box_pair : Host where
  mounts := []
  cpus := some 2

/-- A directory with two files in it. -/
def tree_f : FileTree Bytes :=
  ((FileTree.empty.with_ [] "a" .dir).with_ ["a"] "f" (.file [1])).with_ ["a"] "g" (.file [2, 3])

/-- A copy and a deletion of it, each with two workers: one file of the copy
fails, and one of the deletion. -/
theorem counters_exact_pair :
    (∃ x : Runner × Log, x.2.joined = true ∧ x.2.failed.length = 1 ∧ x.1.job.done_bytes = 1 ∧
      Complete x.1.job x.2) ∧
    ∃ x : Deleter × Log, x.2.joined = true ∧ x.2.failed.length = 1 ∧ x.1.job.done_files = 1 ∧
      Erased x.1.job x.2 := by
  have hcopy : (exec (logged box) (spawn box_pair .copy (.abs ["a"]) (.abs ["b"]), .empty)
      ([.main .none, .walk 3, .main .none, .main .none, .main .none, .worker 0 .none,
        .worker 1 .none, .worker 1 .none, .worker 0 .none, .worker 0 .none, .worker 1 .none,
        .worker 0 (.error .eio), .worker 0 .none, .worker 1 .none, .worker 0 .none,
        .worker 1 .none, .worker 0 .none, .worker 1 .none, .worker 0 .none,
        .main .none].map fun e => (tree_f.with_ [] "b" .dir, e))).map
        (fun x => (x.2.joined, x.2.failed.length, x.1.job.done_bytes)) = some (true, 1, 1) := by
    decide
  have herase : (exec (erasing box) (Deleter.start box_pair (.abs ["a"]), .empty)
      ([.main .none, .main .none, .walk 3, .worker 0 .none, .worker 1 .none, .worker 1 .none,
        .worker 0 .none, .worker 0 .none, .worker 1 (.error .eacces), .worker 1 .none,
        .worker 0 .none, .worker 1 .none, .worker 1 .none, .worker 0 .none,
        .main .none].map fun e => (tree_f, e))).map
        (fun x => (x.2.joined, x.2.failed.length, x.1.job.done_files)) = some (true, 1, 1) := by
    decide
  obtain ⟨x, hx, hout⟩ := Option.map_eq_some_iff.mp hcopy
  obtain ⟨y, hy, hout'⟩ := Option.map_eq_some_iff.mp herase
  simp only [Prod.mk.injEq] at hout hout'
  refine ⟨⟨x, hout.1, hout.2.1, hout.2.2, ?_⟩, ⟨y, hout'.1, hout'.2.1, hout'.2.2, ?_⟩⟩
  · exact ((counters_exact box box_pair).1 .copy (.abs ["a"]) (.abs ["b"]) x
      (reach_of_exec hx)).2 hout.1
  · exact ((counters_exact box box_pair).2 (.abs ["a"]) y (reach_of_exec hy)).2 hout'.1

end WebDavs.Mover
