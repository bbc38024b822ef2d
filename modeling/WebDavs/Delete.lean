/-
`run_delete_job`: one deletion in the background.

A file or a link is removed on the spot. Anything else is walked; workers remove
what the walk listed as files, and then the main thread removes the directories,
last listed first. Threads, events and faults are those of `Job`.
-/
import WebDavs.Handlers

set_option autoImplicit false

namespace WebDavs.Mover

open WebDavs.Posix

/-- What a worker of a deletion is about to do: take a number, show its file in
the record, remove it, and then count it, or count the failure and note it. -/
inductive Remover where
  | idle
  | announce (idx : Nat)
  | remove (idx : Nat)
  | count (idx : Nat)
  | fail (idx : Nat) (err : Errno)
  | note (idx : Nat) (err : Errno)
  | stopped
deriving DecidableEq

/-- The number of the file a worker has taken and not reported yet. -/
def Remover.idx : Remover → Option Nat
  | .idle => none
  | .announce n => some n
  | .remove n => some n
  | .count n => some n
  | .fail n _ => some n
  | .note n _ => some n
  | .stopped => none

/-- Where the main thread of a deletion is. `clearing` and `emptying` count the
directories that are left: the last of them is shown in the record, and then
removed. -/
inductive Clearing where
  | queued
  | checking
  | removing
  | walking
  | working (r : Removals) (workers : List Remover) (next failed : Nat)
  | clearing (r : Removals) (left failed : Nat)
  | emptying (r : Removals) (left failed : Nat)
  | finished
deriving DecidableEq

/-- A deletion: what it was started with, the record it keeps and where it is. -/
structure Deleter where
  src : Path
  src_tail : Path.Tail
  nthreads : Nat
  job : Job
  phase : Clearing
deriving DecidableEq

namespace Deleter

/-- The deletion that `handle_delete` spawns. -/
def start (h : Host) (src : PathBuf) : Deleter where
  src := src.path
  src_tail := src.tail
  nthreads := h.nthreads
  job := .queued .delete src.text ""
  phase := .queued

/-- What is behind the last name of the directory `n` of the walk: the first is the one
the walk began with. -/
def dir_tail (d : Deleter) (n : Nat) : Path.Tail := if n = 0 then d.src_tail else .none

/-- One call of a worker: the tree, the record, how many files have been handed
out, how many could not be removed, and what the worker does next. -/
def work (k : Kernel) (t : FileTree Bytes) (d : Deleter) (r : Removals) (next failed : Nat)
    (f : Fault) : Remover → Option (FileTree Bytes × Job × Nat × Nat × Remover)
  | .idle =>
    match r.files[next]? with
    | none => some (t, d.job, next + 1, failed, .stopped)
    | some _ => some (t, d.job, next + 1, failed, .announce next)
  | .announce idx =>
    match r.files[idx]? with
    | none => none
    | some p => some (t, d.job.push_current p, next, failed, .remove idx)
  | .remove idx =>
    match r.files[idx]? with
    | none => none
    | some p =>
      match remove_file k t p f with
      | .ok t' => some (t', d.job, next, failed, .count idx)
      | .error e => some (t, d.job, next, failed, .fail idx e)
  | .count _ => some (t, { d.job with done_files := d.job.done_files + 1 }, next, failed, .idle)
  | .fail idx e => some (t, d.job, next, failed + 1, .note idx e)
  | .note idx e =>
    match r.files[idx]? with
    | none => none
    | some p => some (t, d.job.note_error (.file p e), next, failed, .idle)
  | .stopped => none

/-- One event of a deletion. -/
def step (k : Kernel) (t : FileTree Bytes) (d : Deleter) : Event → Option (FileTree Bytes × Deleter)
  | .walk fuel =>
    match d.phase with
    | .walking =>
      match walk_from k t d.src d.src_tail (walk_delete k t fuel d.src) with
      | none => none
      | some (.error e) =>
        some (t, { d with phase := .finished, job := d.job.failed_with (.io e) })
      | some (.ok r) =>
        some (t, { d with
          phase := .working r (List.replicate d.nthreads .idle) 0 0
          job := d.job.totals r.files.length r.dirs.length (UInt64.ofNat r.bytes) })
    | _ => none
  | .main f =>
    match d.phase with
    | .queued => some (t, { d with phase := .checking, job := { d.job with status := .running } })
    | .checking =>
      let src := d.src.tailed d.src_tail
      if k.is_file t src || k.is_symlink t src then some (t, { d with phase := .removing })
      else some (t, { d with phase := .walking })
    | .removing =>
      match remove_file k t d.src (f.remove_file_at k t d.src d.src_tail) with
      | .ok t' =>
        some (t', { d with
          phase := .finished
          job := { d.job with
            done_files := d.job.done_files + 1, total_files := 1, status := .done } })
      | .error e => some (t, { d with phase := .finished, job := d.job.failed_with (.io e) })
    | .walking =>
      -- the walk met an error that the tree does not force
      match f.errno with
      | some e => some (t, { d with phase := .finished, job := d.job.failed_with (.io e) })
      | none => none
    | .working r ws _ failed =>
      if ws.all (· = .stopped) then
        some (t, { d with phase := .clearing r r.dirs.length failed })
      else none
    | .clearing _ 0 failed =>
      some (t, { d with
        phase := .finished
        job := { d.job with status := if failed = 0 then .done else .error } })
    | .clearing r (n + 1) failed =>
      match r.dirs[n]? with
      | none => none
      | some p =>
        some (t, { d with phase := .emptying r n failed, job := d.job.push_current p })
    | .emptying r n failed =>
      match r.dirs[n]? with
      | none => none
      | some p =>
        match remove_dir k t p (f.remove_dir_at k t p (d.dir_tail n)) with
        | .ok t' =>
          some (t', { d with
            phase := .clearing r n failed
            job := { d.job with done_dirs := d.job.done_dirs + 1 } })
        | .error _ => some (t, { d with phase := .clearing r n (failed + 1) })
    | .finished => none
  | .worker w f =>
    match d.phase with
    | .working r ws next failed =>
      match ws[w]? with
      | none => none
      | some worker =>
        (work k t d r next failed f worker).map fun x =>
          (x.1, { d with phase := .working r (ws.set w x.2.2.2.2) x.2.2.1 x.2.2.2.1, job := x.2.1 })
    | _ => none

/-! ## The cases of a step -/

/-- What a worker's call can come to. -/
inductive WorkCase (k : Kernel) (t : FileTree Bytes) (d : Deleter) (r : Removals)
    (next failed : Nat) (f : Fault) : Remover → FileTree Bytes × Job × Nat × Nat × Remover →
      Prop where
  | drained (h : r.files[next]? = none) :
      WorkCase k t d r next failed f .idle (t, d.job, next + 1, failed, .stopped)
  | taken (p : Path) (h : r.files[next]? = some p) :
      WorkCase k t d r next failed f .idle (t, d.job, next + 1, failed, .announce next)
  | announced (idx : Nat) (p : Path) (h : r.files[idx]? = some p) :
      WorkCase k t d r next failed f (.announce idx)
        (t, d.job.push_current p, next, failed, .remove idx)
  | removed (idx : Nat) (p : Path) (t' : FileTree Bytes) (h : r.files[idx]? = some p)
      (hr : remove_file k t p f = .ok t') :
      WorkCase k t d r next failed f (.remove idx) (t', d.job, next, failed, .count idx)
  | unremoved (idx : Nat) (p : Path) (e : Errno) (h : r.files[idx]? = some p)
      (hr : remove_file k t p f = .error e) :
      WorkCase k t d r next failed f (.remove idx) (t, d.job, next, failed, .fail idx e)
  | counted (idx : Nat) :
      WorkCase k t d r next failed f (.count idx)
        (t, { d.job with done_files := d.job.done_files + 1 }, next, failed, .idle)
  | failed (idx : Nat) (e : Errno) :
      WorkCase k t d r next failed f (.fail idx e) (t, d.job, next, failed + 1, .note idx e)
  | noted (idx : Nat) (p : Path) (e : Errno) (h : r.files[idx]? = some p) :
      WorkCase k t d r next failed f (.note idx e)
        (t, d.job.note_error (.file p e), next, failed, .idle)

theorem work_cases {k : Kernel} {t : FileTree Bytes} {d : Deleter} {r : Removals}
    {next failed : Nat} {f : Fault} {w : Remover} {x : FileTree Bytes × Job × Nat × Nat × Remover}
    (h : work k t d r next failed f w = some x) : WorkCase k t d r next failed f w x := by
  cases w with
  | idle =>
      simp only [work] at h
      split at h
      · rename_i hn
        cases h
        exact .drained hn
      · rename_i p hn
        cases h
        exact .taken p hn
  | announce idx =>
      simp only [work] at h
      split at h
      · cases h
      · rename_i p hn
        cases h
        exact .announced idx p hn
  | remove idx =>
      simp only [work] at h
      split at h
      · cases h
      · rename_i p hn
        split at h
        · rename_i t' hr
          cases h
          exact .removed idx p t' hn hr
        · rename_i e hr
          cases h
          exact .unremoved idx p e hn hr
  | count idx =>
      cases h
      exact .counted idx
  | fail idx e =>
      cases h
      exact .failed idx e
  | note idx e =>
      simp only [work] at h
      split at h
      · cases h
      · rename_i p hn
        cases h
        exact .noted idx p e hn
  | stopped => cases h

/-- What an event of a deletion can come to. -/
inductive StepCase (k : Kernel) (t : FileTree Bytes) (d : Deleter) :
    Event → FileTree Bytes × Deleter → Prop where
  | started (f : Fault) (hp : d.phase = .queued) :
      StepCase k t d (.main f)
        (t, { d with phase := .checking, job := { d.job with status := .running } })
  | single (f : Fault) (hp : d.phase = .checking)
      (h : k.is_file t d.src = true ∨ k.is_symlink t d.src = true) (hb : d.src_tail = .none) :
      StepCase k t d (.main f) (t, { d with phase := .removing })
  | many (f : Fault) (hp : d.phase = .checking)
      (h : d.src_tail ≠ .none ∨ k.is_file t d.src = false ∧ k.is_symlink t d.src = false) :
      StepCase k t d (.main f) (t, { d with phase := .walking })
  | removed (f : Fault) (t' : FileTree Bytes) (hp : d.phase = .removing)
      (hr : remove_file k t d.src f = .ok t') (hb : d.src_tail = .none) :
      StepCase k t d (.main f) (t', { d with
        phase := .finished
        job := { d.job with
          done_files := d.job.done_files + 1, total_files := 1, status := .done } })
  | unremoved (f : Fault) (e : Errno) (hp : d.phase = .removing)
      (hr : remove_file k t d.src (f.remove_file_at k t d.src d.src_tail) = .error e) :
      StepCase k t d (.main f)
        (t, { d with phase := .finished, job := d.job.failed_with (.io e) })
  | walked (fuel : Nat) (r : Removals) (hp : d.phase = .walking)
      (hw : walk_delete k t fuel d.src = some (.ok r))
      (hb : d.src_tail = .none ∨ k.is_dir t d.src = true) :
      StepCase k t d (.walk fuel) (t, { d with
        phase := .working r (List.replicate d.nthreads .idle) 0 0
        job := d.job.totals r.files.length r.dirs.length (UInt64.ofNat r.bytes) })
  | unwalked (fuel : Nat) (e : Errno) (hp : d.phase = .walking)
      (hw : walk_from k t d.src d.src_tail (walk_delete k t fuel d.src) = some (.error e)) :
      StepCase k t d (.walk fuel)
        (t, { d with phase := .finished, job := d.job.failed_with (.io e) })
  | hindered (f : Fault) (e : Errno) (hp : d.phase = .walking) (hf : f.errno = some e) :
      StepCase k t d (.main f)
        (t, { d with phase := .finished, job := d.job.failed_with (.io e) })
  | worked (w : Nat) (f : Fault) (r : Removals) (ws : List Remover) (next failed : Nat)
      (worker : Remover) (x : FileTree Bytes × Job × Nat × Nat × Remover)
      (hp : d.phase = .working r ws next failed) (hw : ws[w]? = some worker)
      (hx : WorkCase k t d r next failed f worker x) :
      StepCase k t d (.worker w f) (x.1, { d with
        phase := .working r (ws.set w x.2.2.2.2) x.2.2.1 x.2.2.2.1
        job := x.2.1 })
  | joined (f : Fault) (r : Removals) (ws : List Remover) (next failed : Nat)
      (hp : d.phase = .working r ws next failed) (hws : ∀ w ∈ ws, w = .stopped) :
      StepCase k t d (.main f) (t, { d with phase := .clearing r r.dirs.length failed })
  | announced (f : Fault) (r : Removals) (n failed : Nat) (p : Path)
      (hp : d.phase = .clearing r (n + 1) failed) (hn : r.dirs[n]? = some p) :
      StepCase k t d (.main f)
        (t, { d with phase := .emptying r n failed, job := d.job.push_current p })
  | cleared (f : Fault) (r : Removals) (n failed : Nat) (p : Path) (t' : FileTree Bytes)
      (hp : d.phase = .emptying r n failed) (hn : r.dirs[n]? = some p)
      (hr : remove_dir k t p f = .ok t') (hb : d.dir_tail n ≠ .dot) :
      StepCase k t d (.main f) (t', { d with
        phase := .clearing r n failed
        job := { d.job with done_dirs := d.job.done_dirs + 1 } })
  | uncleared (f : Fault) (r : Removals) (n failed : Nat) (p : Path) (e : Errno)
      (hp : d.phase = .emptying r n failed) (hn : r.dirs[n]? = some p)
      (hr : remove_dir k t p (f.remove_dir_at k t p (d.dir_tail n)) = .error e) :
      StepCase k t d (.main f) (t, { d with phase := .clearing r n (failed + 1) })
  | ended (f : Fault) (r : Removals) (failed : Nat) (hp : d.phase = .clearing r 0 failed) :
      StepCase k t d (.main f) (t, { d with
        phase := .finished
        job := { d.job with status := if failed = 0 then .done else .error } })

theorem step_cases {k : Kernel} {t : FileTree Bytes} {d : Deleter} {ev : Event}
    {x : FileTree Bytes × Deleter} (h : step k t d ev = some x) : StepCase k t d ev x := by
  cases ev with
  | walk fuel =>
      simp only [step] at h
      split at h
      · rename_i hp
        split at h
        · cases h
        · rename_i e hw
          cases h
          exact .unwalked fuel e hp hw
        · rename_i r hw
          cases h
          obtain ⟨hr, hb⟩ := walk_from_ok hw
          exact .walked fuel r hp hr hb
      · cases h
  | main f =>
      simp only [step] at h
      -- the main thread does what its phase says: one branch for each phase, in their order
      split at h
      · rename_i hp
        cases h
        exact .started f hp
      · rename_i hp
        split at h
        · rename_i hc
          cases h
          -- with a tail there is neither a file nor a link
          by_cases hb : d.src_tail = .none
          · exact .single f hp (by simpa [hb] using hc) hb
          · simp [Path.tailed_of_ne hb] at hc
        · rename_i hc
          cases h
          refine .many f hp ?_
          by_cases hb : d.src_tail = .none
          · exact .inr (by simpa [hb] using hc)
          · exact .inl hb
      · rename_i hp
        split at h
        · rename_i t' hr
          cases h
          have hb := remove_file_at_ok hr
          rw [hb, Fault.remove_file_at_none] at hr
          exact .removed f t' hp hr hb
        · rename_i e hr
          cases h
          exact .unremoved f e hp hr
      · rename_i hp
        split at h
        · rename_i e hf
          cases h
          exact .hindered f e hp hf
        · cases h
      · rename_i r ws next failed hp
        split at h
        · rename_i hws
          cases h
          -- the join returns only when every worker has stopped
          refine .joined f r ws next failed hp fun w hw => ?_
          simpa using List.all_eq_true.mp hws w hw
        · cases h
      · rename_i r failed hp
        cases h
        exact .ended f r failed hp
      · rename_i r n failed hp
        split at h
        · cases h
        · rename_i p hn
          cases h
          exact .announced f r n failed p hp hn
      · rename_i r n failed hp
        split at h
        · cases h
        · rename_i p hn
          split at h
          · rename_i t' hr
            cases h
            have hb := remove_dir_at_ok hr
            rw [Fault.remove_dir_at, if_neg hb] at hr
            exact .cleared f r n failed p t' hp hn hr hb
          · rename_i e hr
            cases h
            exact .uncleared f r n failed p e hp hn hr
      · cases h
  | worker w f =>
      simp only [step] at h
      split at h
      · rename_i r ws next failed hp
        split at h
        · cases h
        · rename_i worker hw
          obtain ⟨x', hx, rfl⟩ := Option.map_eq_some_iff.mp h
          exact .worked w f r ws next failed worker x' hp hw (work_cases hx)
      · cases h

end Deleter

end WebDavs.Mover
