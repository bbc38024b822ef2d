/-
What the status of a job says.

A deletion that ends `done` has removed everything it listed, and one that has
not ends in `error`: its failures are counted by the workers and by the main
thread, and the count decides. A move or a copy ends `done` whatever its workers
and its `create_dir_all` calls came to, so its status is right where none of them
failed.

What a job has done is read off the trees: a trace has, for each call on the file
system, the tree that the call found and the one it left, whatever the call came
back with.
-/
import WebDavs.Posix.Lasting
import WebDavs.Tally

set_option autoImplicit false

namespace WebDavs.Mover

open WebDavs.Posix WebDavs.Posix.FileTree WebDavs.Steps

/-! ## What a call has done -/

section

variable {k : Kernel} {t t' : FileTree Bytes} {p q : Path}

/-- The entry that `p` names is at `q`, with all below it, and at `p` no longer. -/
def EntryMoved (k : Kernel) (t t' : FileTree Bytes) (p q : Path) : Prop :=
  ∃ s d, k.entry_at t p = some s ∧ k.entry_at t q = some d ∧ t.get s ≠ none ∧
    (∀ r, t'.get (d ++ r) = t.get (s ++ r)) ∧ (s ≠ d → t'.get s = none)

/-- The file that `q` leads to holds what the one held that `p` led to. -/
def FileCopied (k : Kernel) (t t' : FileTree Bytes) (p q : Path) : Prop :=
  ∃ s d bs, k.stat t p = some s ∧ t.get s = some (.file bs) ∧ k.stat t' q = some d ∧
    t'.get d = some (.file bs)

/-- The entry that `p` names is gone. -/
def EntryGone (k : Kernel) (t t' : FileTree Bytes) (p : Path) : Prop :=
  ∃ s, k.entry_at t p = some s ∧ t.get s ≠ none ∧ t'.get s = none

/-- What has not changed has lost nothing. -/
theorem not_entryGone_self : ¬ EntryGone k t t p := fun ⟨_, _, hne, hnone⟩ => hne hnone

theorem EntryMoved.of_rename (h : k.rename t p q = .ok t') : EntryMoved k t t' p q := by
  obtain ⟨d, n, d', n', e, hs, hs', he, -, -, hcase⟩ := Kernel.rename_spec h
  refine ⟨_, _, Kernel.entry_at_of_slot hs, Kernel.entry_at_of_slot hs', by simp [he], ?_, ?_⟩
  · rcases hcase with ⟨heq, rfl⟩ | ⟨-, -, -, -, hget⟩
    · rw [heq]
      exact fun _ => rfl
    · intro r
      rw [hget, if_pos (List.prefix_append _ _), List.drop_left]
  · intro hne
    rcases hcase with ⟨heq, -⟩ | ⟨-, -, hdir, hfile, hget⟩
    · exact absurd heq hne
    · rw [hget, if_neg, if_pos List.prefix_rfl]
      -- the source would lie below a place that is nothing, empty or no directory
      rintro ⟨r, hr⟩
      have hr₀ : r ≠ [] := fun h₀ => hne (by rw [← hr, h₀, List.append_nil])
      have hnone : t.get (d' ++ [n'] ++ r) = none := by
        by_cases hd : e = .dir
        · rcases hdir hd with hfree | ⟨-, hempty⟩
          · exact t.get_none_of_prefix (List.prefix_append _ _) hfree
          · exact get_below_empty (children_eq_nil.mpr hempty) hr₀
        · exact t.get_below hr₀ (hfile hd)
      rw [hr, he] at hnone
      cases hnone

theorem FileCopied.of_copy_file {f : Fault} {m : Nat} (h : copy_file k t p q f = (t', .ok m))
    (hself : ∀ s d n, k.stat t p = some s → k.place t q = some (d, n) → s ≠ d ++ [n]) :
    FileCopied k t t' p q := by
  rcases copy_file_spec h with ⟨-, e, he⟩ | ⟨l, d, n, bs, hs, hp, -, hdir, hget, hok⟩
  · cases he
  · obtain ⟨c, hc, rfl⟩ := hok m rfl
    rw [if_neg (hself l d n hs hp)] at hget
    have hnew : t'.get (d ++ [n]) = some (.file c) := by rw [hget, if_pos rfl]
    exact ⟨l, d ++ [n], c, hs, hc, Kernel.stat_of_place hnew hdir
      (fun x hx => by rw [hget, if_neg hx]) hp, hnew⟩

theorem EntryGone.of_remove_file (h : k.remove_file t p = .ok t') : EntryGone k t t' p := by
  obtain ⟨d, n, e, hs, he, -, hget⟩ := Kernel.remove_file_spec h
  exact ⟨_, Kernel.entry_at_of_slot hs, by simp [he], by rw [hget, if_pos rfl]⟩

theorem EntryGone.of_remove_dir (h : k.remove_dir t p = .ok t') : EntryGone k t t' p := by
  obtain ⟨d, n, hs, he, -, hget⟩ := Kernel.remove_dir_spec h
  exact ⟨_, Kernel.entry_at_of_slot hs, by simp [he], by rw [hget, if_pos rfl]⟩

end

/-! ## The trace -/

/-- What a call is for: the whole that the job was started with, a listed file or a
listed directory. -/
inductive Aim where
  | whole
  | file (n : Nat)
  | dir (n : Nat)
deriving DecidableEq

/-- A call, with the tree that it found and the tree that it left. -/
structure Deed where
  aim : Aim
  before : FileTree Bytes
  after : FileTree Bytes

/-- What is known of a run from outside: what its walk listed, and the calls it has
made, the oldest first. -/
structure Trace (L : Type) where
  listed : Option L
  deeds : List Deed

namespace Trace

variable {L : Type}

/-- Nothing has happened yet. -/
def empty : Trace L := ⟨none, []⟩

/-- A step that leaves a job with the listing `found`, by a call for `aim`. -/
def after (tr : Trace L) (found : Option L) (aim : Option Aim) (t t' : FileTree Bytes) : Trace L :=
  ⟨found.or tr.listed, tr.deeds ++ aim.toList.map fun a => ⟨a, t, t'⟩⟩

end Trace

/-- What a worker's next call is for. -/
def Worker.aim : Worker → Option Aim
  | .rename task => some (.file task.idx)
  | .copy task => some (.file task.idx)
  | .remove task => some (.file task.idx)
  | _ => none

/-- The listing that a move or a copy works with. -/
def Phase.listing : Phase → Option Listing
  | .checking l => some l
  | .renaming l => some l
  | .making l _ => some l
  | .working l _ _ _ => some l
  | .cleaning l _ => some l
  | _ => none

/-- What the next call of a move or a copy is for. -/
def Runner.aim (r : Runner) : Event → Option Aim
  | .walk _ => none
  | .main _ =>
    match r.phase with
    | .renaming _ => some .whole
    | .making l n => l.dirs[n]?.map fun _ => .dir n
    | _ => none
  | .worker i _ =>
    match r.phase with
    | .working _ ws _ _ => ws[i]?.bind Worker.aim
    | _ => none

/-- A move or a copy with its trace. An event comes with the tree it finds. -/
def watched (k : Kernel) (x : Runner × Trace Listing) (e : FileTree Bytes × Event) :
    Option (Runner × Trace Listing) :=
  (x.1.step k e.1 e.2).map fun y => (y.2, x.2.after y.2.phase.listing (x.1.aim e.2) e.1 y.1)

/-- What a worker's next call is for, in a deletion. -/
def Remover.aim : Remover → Option Aim
  | .remove idx => some (.file idx)
  | _ => none

/-- The listing that a deletion works with. -/
def Clearing.listing : Clearing → Option Removals
  | .working r _ _ _ => some r
  | .clearing r _ _ => some r
  | .emptying r _ _ => some r
  | _ => none

/-- What the next call of a deletion is for. -/
def Deleter.aim (d : Deleter) : Event → Option Aim
  | .walk _ => none
  | .main _ =>
    match d.phase with
    | .removing => some .whole
    | .emptying _ n _ => some (.dir n)
    | _ => none
  | .worker i _ =>
    match d.phase with
    | .working _ ws _ _ => ws[i]?.bind Remover.aim
    | _ => none

/-- A deletion with its trace. -/
def watching (k : Kernel) (x : Deleter × Trace Removals) (e : FileTree Bytes × Event) :
    Option (Deleter × Trace Removals) :=
  (x.1.step k e.1 e.2).map fun y => (y.2, x.2.after y.2.phase.listing (x.1.aim e.2) e.1 y.1)

/-! ## What the status should say -/

/-- The file `n` of a list has gone from `p` to `q`: it was renamed, or copied and, for a
move, removed after that. -/
def FileSent (k : Kernel) (op : Op) (ds : List Deed) (n : Nat) (p q : Path) : Prop :=
  (op = .move ∧ ∃ d ∈ ds, d.aim = .file n ∧ EntryMoved k d.before d.after p q) ∨
    (op ≠ .move ∧ ∃ d ∈ ds, d.aim = .file n ∧ FileCopied k d.before d.after p q) ∨
    (op = .move ∧ ∃ d d', [d, d'].Sublist ds ∧ d.aim = .file n ∧ d'.aim = .file n ∧
      FileCopied k d.before d.after p q ∧ EntryGone k d'.before d'.after p)

/-- The directory `n` of a list is there at `q`. -/
def DirMade (k : Kernel) (ds : List Deed) (n : Nat) (q : Path) : Prop :=
  ∃ d ∈ ds, d.aim = .dir n ∧ k.is_dir d.after q = true

/-- A move or a copy has done what it is for: at once, or each listed file and each
listed directory. -/
def Delivered (k : Kernel) (r : Runner) (tr : Trace Listing) : Prop :=
  (∃ d ∈ tr.deeds, d.aim = .whole ∧ EntryMoved k d.before d.after r.src r.dst) ∨
    ∃ l, tr.listed = some l ∧
      (∀ n sf rel, l.files[n]? = some (sf, rel) →
        FileSent k r.op tr.deeds n sf (target_path r.dst rel)) ∧
      ∀ n rel, l.dirs[n]? = some rel → DirMade k tr.deeds n (target_path r.dst rel)

/-- A call for `a` has removed the entry that `p` names. -/
def Struck (k : Kernel) (ds : List Deed) (a : Aim) (p : Path) : Prop :=
  ∃ d ∈ ds, d.aim = a ∧ EntryGone k d.before d.after p

/-- A deletion has done what it is for. -/
def Demolished (k : Kernel) (x : Deleter) (tr : Trace Removals) : Prop :=
  Struck k tr.deeds .whole x.src ∨
    ∃ r, tr.listed = some r ∧ (∀ n p, r.files[n]? = some p → Struck k tr.deeds (.file n) p) ∧
      ∀ n p, r.dirs[n]? = some p → Struck k tr.deeds (.dir n) p

/-- The status is `done` when everything was done, and `error` otherwise. -/
def Truthful (job : Job) (Did : Prop) : Prop :=
  (job.status = .done ↔ Did) ∧ (job.status ≠ .done → job.status = .error)

section

variable {job : Job} {Did : Prop}

theorem truthful_done (hs : job.status = .done) (h : Did) : Truthful job Did :=
  ⟨⟨fun _ => h, fun _ => hs⟩, fun hn => absurd hs hn⟩

theorem truthful_error (hs : job.status = .error) (h : ¬ Did) : Truthful job Did := by
  refine ⟨⟨fun hd => ?_, fun hd => absurd hd h⟩, fun _ => hs⟩
  rw [hs] at hd
  cases hd

theorem Truthful.congr {Did' : Prop} (h : Truthful job Did) (hiff : Did ↔ Did') :
    Truthful job Did' := ⟨h.1.trans hiff, h.2⟩

end

/-! ## What the log says -/

/-- Everything was done: at once, or every listed file and every listed
directory. -/
def Log.all_done (log : Log) : Prop :=
  log.whole = true ∨ ∃ n m, log.listed = some (n, m) ∧
    (∀ i, i < n → ∃ o ∈ log.outcomes, o.1.idx = i ∧ o.2 = true) ∧ ∀ i, i < m → i ∈ log.dirs

/-- Nothing was listed, so not everything was done. -/
theorem Log.not_all_done {log : Log} (hl : log.listed = none) (hw : log.whole = false) :
    ¬ log.all_done := by
  rintro (h | ⟨n, m, h, -⟩)
  · rw [hw] at h
    cases h
  · rw [hl] at h
    cases h

/-- Every file came out well. -/
theorem Log.files_done {log : Log} {n : Nat} (hd : log.decided.Perm (List.range n))
    (hf : log.failed = []) {i : Nat} (hi : i < n) :
    ∃ o ∈ log.outcomes, o.1.idx = i ∧ o.2 = true := by
  obtain ⟨o, ho, hio⟩ := List.mem_map.mp (hd.mem_iff.mpr (List.mem_range.mpr hi))
  refine ⟨o, ho, hio, ?_⟩
  by_contra hne
  have hmem : o.1 ∈ log.failed :=
    List.mem_map.mpr ⟨o, List.mem_filter.mpr ⟨ho, by simpa using hne⟩, rfl⟩
  rw [hf] at hmem
  cases hmem

/-- A file that came out badly did not also come out well. -/
theorem Log.failed_nil {log : Log} {n : Nat} (hd : log.decided.Nodup)
    (hlt : ∀ i ∈ log.decided, i < n)
    (h : ∀ i, i < n → ∃ o ∈ log.outcomes, o.1.idx = i ∧ o.2 = true) : log.failed = [] := by
  rw [Log.failed, List.map_eq_nil_iff, List.filter_eq_nil_iff]
  intro o ho hbad
  have hmem : o.1.idx ∈ log.decided := List.mem_map.mpr ⟨o, ho, rfl⟩
  obtain ⟨o', ho', hidx, hok⟩ := h _ (hlt _ hmem)
  have heq : o' = o := List.inj_on_of_nodup_map hd ho' ho hidx
  rw [heq] at hok
  rw [hok] at hbad
  cases hbad

/-! ## Moves and copies -/

/-- The call that the worker is about to make does not fail, but for a rename
after which it falls back to copying, and copies no file onto itself. -/
def WorkSmooth (k : Kernel) (t : FileTree Bytes) (r : Runner) (l : Listing) (f : Fault) :
    Worker → Prop
  | .rename task => ∀ sf rel e, l.files[task.idx]? = some (sf, rel) →
      rename k t sf (target_path r.dst rel)
        (f.rename_at k t sf .none (target_path r.dst rel) (r.target_tail rel)) = .error e →
      falls_back e = true
  | .copy task => ∀ sf rel, l.files[task.idx]? = some (sf, rel) →
      (∀ t' e, copy_file k t sf (target_path r.dst rel)
        (f.copy_file_at k t sf .none (target_path r.dst rel) (r.target_tail rel))
          ≠ (t', .error e)) ∧
      ∀ s d n, k.stat t sf = some s → k.place t (target_path r.dst rel) = some (d, n) →
        s ≠ d ++ [n]
  | .remove task => ∀ sf rel e, l.files[task.idx]? = some (sf, rel) →
      remove_file k t sf f ≠ .error e
  | _ => True

/-- No `create_dir_all` and no transfer of a file fails, and no file is copied onto
itself. -/
def Smooth (k : Kernel) (r : Runner) (e : FileTree Bytes × Event) : Prop :=
  (∀ l n rel f, r.phase = .making l n → e.2 = .main f → l.dirs[n]? = some rel →
    (create_dir_all k e.1 (target_path r.dst rel)
      (f.create_dir_all_at k e.1 (target_path r.dst rel) (r.target_tail rel))).2 = none) ∧
  ∀ l ws next failed i f w, r.phase = .working l ws next failed → e.2 = .worker i f →
    ws[i]? = some w → WorkSmooth k e.1 r l f w

/-- What holds in each phase when nothing has failed. -/
def SmoothAt (job : Job) (log : Log) : Phase → Prop
  | .queued => log.listed = none ∧ log.whole = false ∧ log.dirs = [] ∧ log.failed = []
  | .walking => log.listed = none ∧ log.whole = false ∧ log.dirs = [] ∧ log.failed = []
  | .checking l => log.listed = some (l.files.length, l.dirs.length) ∧ log.dirs = [] ∧
      log.failed = []
  | .renaming l => log.listed = some (l.files.length, l.dirs.length) ∧ log.dirs = [] ∧
      log.failed = []
  | .making l n => log.listed = some (l.files.length, l.dirs.length) ∧
      log.dirs = List.range n ∧ n ≤ l.dirs.length ∧ log.failed = []
  | .working l _ _ _ => log.listed = some (l.files.length, l.dirs.length) ∧
      log.dirs = List.range l.dirs.length ∧ log.failed = []
  | .cleaning _ _ => log.all_done
  | .ending => log.all_done
  | .finished => (job.status = .done ∧ log.all_done) ∨ job.status = .error ∧ log.listed = none

section

variable {k : Kernel} {log log' : Log}

theorem Log.failed_append_true (x : Task) (h : log.failed = []) :
    ({ log with outcomes := log.outcomes ++ [(x, true)] } : Log).failed = [] := by
  simpa [Log.failed, List.filter_append] using h

/-- A call of a worker that does not fail. -/
theorem work_smooth {t : FileTree Bytes} {r : Runner} {l : Listing} {next failed : Nat}
    {f : Fault} {w : Worker} {y : FileTree Bytes × Job × Nat × Nat × Worker}
    (hs : WorkSmooth k t r l f w) (hf : log.failed = [])
    (hy : Runner.WorkCase k t r l next failed f w y) :
    (log.work w y.2.2.2.2).failed = [] ∧ (log.work w y.2.2.2.2).listed = log.listed ∧
      (log.work w y.2.2.2.2).dirs = log.dirs := by
  cases hy with
  | announced task sf rel hg =>
      by_cases hfirst : r.op = .move ∧ r.same_drive = true
      · simp only [Runner.first, hfirst]
        exact ⟨hf, rfl, rfl⟩
      · simp only [Runner.first, hfirst]
        exact ⟨hf, rfl, rfl⟩
  | renamed task sf rel t' hg hr => exact ⟨Log.failed_append_true task hf, rfl, rfl⟩
  | unrenamed task sf rel e hg hr =>
      -- it falls back
      have hfb := hs sf rel e hg (by simpa using hr)
      simp only [hfb, if_true]
      exact ⟨hf, rfl, rfl⟩
  | copied task sf rel t' m hg hcp =>
      by_cases hop : r.op = .move
      · simp only [hop, if_true]
        exact ⟨hf, rfl, rfl⟩
      · simp only [hop, if_false]
        exact ⟨Log.failed_append_true task hf, rfl, rfl⟩
  | uncopied task sf rel t' e hg hcp => exact absurd (by simpa using hcp) ((hs sf rel hg).1 t' e)
  | removed task sf rel t' hg hr => exact ⟨Log.failed_append_true task hf, rfl, rfl⟩
  | unremoved task sf rel e hg hr => exact absurd hr (hs sf rel e hg)
  | _ => exact ⟨hf, rfl, rfl⟩

/-- **One event** of a move or a copy in which nothing fails. -/
theorem smooth_step {x x' : Runner × Log} {e : FileTree Bytes × Event} (ht : Tallied x)
    (h : SmoothAt x.1.job x.2 x.1.phase) (he : Smooth k x.1 e) (hs : logged k x e = some x') :
    SmoothAt x'.1.job x'.2 x'.1.phase := by
  obtain ⟨r, log⟩ := x
  obtain ⟨t, ev⟩ := e
  obtain ⟨hmake, hwork⟩ := he
  obtain ⟨-, -, hat⟩ := ht
  dsimp only at h hmake hwork hat
  obtain ⟨y, hy, rfl⟩ := Option.map_eq_some_iff.mp hs
  dsimp only at hy
  cases Runner.step_cases hy with
  | started f hp =>
      rw [hp] at h
      simp only [Log.after, hp]
      exact h
  -- a job whose walk failed has done nothing, and says so
  | unwalked ev e' hp =>
      rw [hp] at h
      obtain ⟨hl, -, -, -⟩ := h
      simp only [Log.after, hp]
      exact .inr ⟨rfl, hl⟩
  | walked fuel l hp hw =>
      rw [hp] at h
      obtain ⟨-, -, hd, hf⟩ := h
      simp only [Log.after, hp]
      exact ⟨rfl, hd, hf⟩
  | checked_fast f l hp hop hsd hx =>
      rw [hp] at h
      simp only [Log.after, hp]
      exact h
  | checked_slow f l hp =>
      rw [hp] at h
      obtain ⟨hl, hd, hf⟩ := h
      simp only [Log.after, hp]
      exact ⟨hl, hd, Nat.zero_le _, hf⟩
  | renamed_tree f l t' hp hr =>
      simp only [Log.after, hp]
      exact .inl ⟨rfl, .inl rfl⟩
  | unrenamed_tree f l hp =>
      rw [hp] at h
      obtain ⟨hl, hd, hf⟩ := h
      simp only [Log.after, hp]
      exact ⟨hl, hd, Nat.zero_le _, hf⟩
  | made f l n rel hp hn =>
      rw [hp] at h
      obtain ⟨hl, hd, hle, hf⟩ := h
      -- that no directory is refused is what `Smooth` says of this event
      have hok := hmake l n rel f hp rfl hn
      rw [target_path_eq] at hok
      have hlt := (List.getElem?_eq_some_iff.mp hn).1
      simp only [Log.after, hp, hn, target_path_eq, hok, Option.isNone_none, if_true]
      refine ⟨hl, ?_, hlt, hf⟩
      rw [hd, List.range_succ]
  | spawned f l n hp hn =>
      rw [hp] at h
      obtain ⟨hl, hd, hle, hf⟩ := h
      -- the directories are all made once there is none with the next number
      have hge := List.getElem?_eq_none_iff.mp hn
      simp only [Log.after, hp]
      refine ⟨hl, ?_, hf⟩
      rw [hd, Nat.le_antisymm hle hge]
  | worked i f l ws next failed worker y hp hw hy' =>
      rw [hp] at h
      obtain ⟨hl, hd, hf⟩ := h
      have hset : (ws.set i y.2.2.2.2)[i]? = some y.2.2.2.2 := Pool.set_self hw
      simp only [Log.after, hp, hw, hset]
      obtain ⟨h₁, h₂, h₃⟩ := work_smooth (hwork l ws next failed i f worker hp rfl hw) hf hy'
      exact ⟨h₂.trans hl, h₃.trans hd, h₁⟩
  | joined f l ws next failed hp hws =>
      rw [hp] at h hat
      obtain ⟨hl, hd, hf⟩ := h
      obtain ⟨htally, -, ht, -⟩ := hat
      -- every number is decided, and none of the outcomes is a failure
      have hover := htally.over ht hws rfl
      simp only [Log.after, hp]
      refine .inr ⟨_, _, hl, fun i hi => ?_, fun i hi => ?_⟩
      · refine @Log.files_done log _ hover.decided hf i ?_
        rw [ht]
        exact hi
      · show i ∈ log.dirs
        rw [hd]
        exact List.mem_range.mpr hi
  | cleaned f l hp hop =>
      rw [hp] at h
      simp only [Log.after, hp]
      exact h
  | kept f l failed hp hnc =>
      rw [hp] at h
      simp only [Log.after, hp]
      exact h
  | ended f hp =>
      rw [hp] at h
      simp only [Log.after, hp]
      exact .inl ⟨rfl, h⟩

end


/-! ### The log and the trace -/

/-- The workers of a move or a copy. -/
def Phase.crew : Phase → List Worker
  | .working _ ws _ _ => ws
  | _ => []

/-- What is known of a worker: only a move renames, and what is to be removed has been
copied. -/
def Worker.Due (k : Kernel) (op : Op) (dst : Path) (l : Listing) (ds : List Deed) : Worker → Prop
  | .rename _ => op = .move
  | .remove task => op = .move ∧ ∀ sf rel, l.files[task.idx]? = some (sf, rel) →
      ∃ d ∈ ds, d.aim = .file task.idx ∧
        FileCopied k d.before d.after sf (target_path dst rel)
  | _ => True

/-- A path that names something: the root, or what has a name. -/
def Named (p : Path) : Prop := p.root = true ∨ p.comps ≠ []

/-- What the log has as done, the calls of the trace have done. -/
structure Borne (k : Kernel) (op : Op) (src dst : Path) (log : Log) (tr : Trace Listing)
    (ph : Phase) : Prop where
  named : Named dst
  listed : log.listed = tr.listed.map fun l => (l.files.length, l.dirs.length)
  phase : ∀ l, ph.listing = some l → tr.listed = some l
  fresh : tr.listed = none → tr.deeds = []
  whole : log.whole = true →
    ∃ d ∈ tr.deeds, d.aim = .whole ∧ EntryMoved k d.before d.after src dst
  files : ∀ l, tr.listed = some l → ∀ o ∈ log.outcomes, o.2 = true → ∀ sf rel,
    l.files[o.1.idx]? = some (sf, rel) →
      FileSent k op tr.deeds o.1.idx sf (target_path dst rel)
  dirs : ∀ l, tr.listed = some l → ∀ n ∈ log.dirs, ∀ rel, l.dirs[n]? = some rel →
    DirMade k tr.deeds n (target_path dst rel)
  due : ∀ l, tr.listed = some l → ∀ w ∈ ph.crew, w.Due k op dst l tr.deeds

section

variable {k : Kernel} {op : Op} {src dst p q : Path} {log log' : Log} {tr : Trace Listing}
variable {ph ph' : Phase} {l : Listing} {ds ds' : List Deed} {n : Nat}

/-- A job that has not begun. -/
theorem borne_start (hd : Named dst) : Borne k op src dst .empty .empty .queued where
  named := hd
  listed := rfl
  phase l hl := by cases hl
  fresh _ := rfl
  whole hw := by cases hw
  files l hl := by cases hl
  dirs l hl := by cases hl
  due l hl := by cases hl

/-- No call of its own, and nothing new is listed. -/
theorem Trace.after_none {L : Type} {tr : Trace L} {found : Option L} {t t' : FileTree Bytes}
    (h : ∀ l, found = some l → tr.listed = some l) : tr.after found none t t' = tr := by
  cases found with
  | none => simp [Trace.after]
  | some l =>
      rw [Trace.after, Option.some_or, ← h l rfl]
      simp

theorem Trace.after_some {L : Type} {tr : Trace L} {found : Option L} {a : Aim}
    {t t' : FileTree Bytes} (h : ∀ l, found = some l → tr.listed = some l) :
    tr.after found (some a) t t' = ⟨tr.listed, tr.deeds ++ [⟨a, t, t'⟩]⟩ := by
  cases found with
  | none => simp [Trace.after]
  | some l => simp [Trace.after, h l rfl]

/-- More calls take nothing back. -/
theorem FileSent.mono (h : FileSent k op ds n p q) (hd : ds.Sublist ds') :
    FileSent k op ds' n p q := by
  rcases h with ⟨hop, d, hm, h⟩ | ⟨hop, d, hm, h⟩ | ⟨hop, d, d', hm, h⟩
  · exact .inl ⟨hop, d, hd.subset hm, h⟩
  · exact .inr (.inl ⟨hop, d, hd.subset hm, h⟩)
  · exact .inr (.inr ⟨hop, d, d', hm.trans hd, h⟩)

theorem DirMade.mono (h : DirMade k ds n q) (hd : ds.Sublist ds') : DirMade k ds' n q :=
  let ⟨d, hm, h⟩ := h
  ⟨d, hd.subset hm, h⟩

theorem Worker.Due.mono {w : Worker} (h : w.Due k op dst l ds) (hd : ds.Sublist ds') :
    w.Due k op dst l ds' := by
  cases w with
  | remove task =>
      refine ⟨h.1, fun sf rel hf => ?_⟩
      obtain ⟨d, hm, hc⟩ := h.2 sf rel hf
      exact ⟨d, hd.subset hm, hc⟩
  | _ => exact h

/-- A step without a call, that decides nothing. -/
theorem Borne.quiet {t t' : FileTree Bytes} (h : Borne k op src dst log tr ph)
    (hl : log'.listed = log.listed) (hw : log'.whole = log.whole)
    (ho : log'.outcomes = log.outcomes) (hd : log'.dirs = log.dirs)
    (hp : ∀ l, ph'.listing = some l → ph.listing = some l) (hcrew : ∀ w ∈ ph'.crew, w = .idle) :
    Borne k op src dst log' (tr.after ph'.listing none t t') ph' := by
  rw [Trace.after_none fun l hl => h.phase l (hp l hl)]
  refine ⟨h.named, hl.trans h.listed, fun l hl => h.phase l (hp l hl), h.fresh,
    fun hw' => h.whole (hw ▸ hw'), ?_, ?_, fun _ _ w hw => ?_⟩
  · rw [ho]
    exact h.files
  · rw [hd]
    exact h.dirs
  · rw [hcrew w hw]
    trivial

/-- A call of the main thread, for the whole or for a directory. -/
theorem Borne.called {t t' : FileTree Bytes} {a : Aim} (h : Borne k op src dst log tr ph)
    (hthere : tr.listed = some l) (hl : log'.listed = log.listed)
    (ho : log'.outcomes = log.outcomes)
    (hw : log'.whole = true → log.whole = true ∨ a = .whole ∧ EntryMoved k t t' src dst)
    (hd : ∀ n ∈ log'.dirs, n ∈ log.dirs ∨ a = .dir n ∧ ∀ rel, l.dirs[n]? = some rel →
      k.is_dir t' (target_path dst rel) = true)
    (hp : ∀ l, ph'.listing = some l → ph.listing = some l) (hcrew : ph'.crew = []) :
    Borne k op src dst log' (tr.after ph'.listing (some a) t t') ph' := by
  rw [Trace.after_some fun l hl => h.phase l (hp l hl)]
  have hgrow : tr.deeds.Sublist (tr.deeds ++ [⟨a, t, t'⟩]) := List.sublist_append_left ..
  have hlast : (⟨a, t, t'⟩ : Deed) ∈ tr.deeds ++ [⟨a, t, t'⟩] :=
    List.mem_append_right _ List.mem_cons_self
  refine ⟨h.named, hl.trans h.listed, fun l hl => h.phase l (hp l hl), fun hn => ?_,
    fun hwt => ?_, ?_, ?_, fun _ _ w hw => ?_⟩
  · rw [hthere] at hn
    cases hn
  · rcases hw hwt with hold | ⟨ha, hm⟩
    · obtain ⟨d, hm, hd⟩ := h.whole hold
      exact ⟨d, hgrow.subset hm, hd⟩
    · exact ⟨_, hlast, ha, hm⟩
  · intro l' hl' o ho' hok sf rel hf
    exact (h.files l' hl' o (ho ▸ ho') hok sf rel hf).mono hgrow
  · intro l' hl' n hn rel hrel
    obtain rfl := Option.some.inj (hthere.symm.trans hl')
    rcases hd n hn with hold | ⟨ha, hm⟩
    · exact (h.dirs l hthere n hold rel hrel).mono hgrow
    · exact ⟨_, hlast, ha, hm rel hrel⟩
  · rw [hcrew] at hw
    cases hw

/-- A step of a worker, with the calls `ds`. -/
theorem Borne.worked {ws : List Worker} {next failed next' failed' i : Nat} {w' : Worker}
    (h : Borne k op src dst log tr (.working l ws next failed))
    (hl : log'.listed = log.listed) (hwh : log'.whole = log.whole) (hd : log'.dirs = log.dirs)
    (ho : ∀ o ∈ log'.outcomes, o.2 = true → o ∈ log.outcomes ∨ ∀ sf rel,
      l.files[o.1.idx]? = some (sf, rel) →
        FileSent k op (tr.deeds ++ ds) o.1.idx sf (target_path dst rel))
    (hdue : w'.Due k op dst l (tr.deeds ++ ds)) :
    Borne k op src dst log' ⟨tr.listed, tr.deeds ++ ds⟩
      (.working l (ws.set i w') next' failed') := by
  have hlist := h.phase l rfl
  have hgrow : tr.deeds.Sublist (tr.deeds ++ ds) := List.sublist_append_left ..
  refine ⟨h.named, hl.trans h.listed, fun l' hl' => ?_, fun hn => ?_, fun hwt => ?_, ?_, ?_, ?_⟩
  · obtain rfl := Option.some.inj hl'
    exact hlist
  · rw [hlist] at hn
    cases hn
  · obtain ⟨d, hm, hd⟩ := h.whole (hwh ▸ hwt)
    exact ⟨d, hgrow.subset hm, hd⟩
  · intro l' hl' o hm hok sf rel hf
    obtain rfl := Option.some.inj (hlist.symm.trans hl')
    rcases ho o hm hok with hold | hnew
    · exact (h.files l hlist o hold hok sf rel hf).mono hgrow
    · exact hnew sf rel hf
  · intro l' hl' n hn rel hrel
    exact (h.dirs l' hl' n (hd ▸ hn) rel hrel).mono hgrow
  · intro l' hl' v hv
    obtain rfl := Option.some.inj (hlist.symm.trans hl')
    rcases List.mem_or_eq_of_mem_set hv with hm | rfl
    · exact (h.due l hlist v hm).mono hgrow
    · exact hdue

/-- **A call of a worker** in a run in which nothing fails. -/
theorem Borne.work {t : FileTree Bytes} {r : Runner} {ws : List Worker} {next failed i : Nat}
    {f : Fault} {w : Worker} {y : FileTree Bytes × Job × Nat × Nat × Worker}
    (h : Borne k r.op r.src r.dst log tr (.working l ws next failed)) (hw : ws[i]? = some w)
    (hs : WorkSmooth k t r l f w) (hy : Runner.WorkCase k t r l next failed f w y) :
    Borne k r.op r.src r.dst (log.work w y.2.2.2.2) (tr.after (some l) w.aim t y.1)
      (.working l (ws.set i y.2.2.2.2) y.2.2.1 y.2.2.2.1) := by
  have hlist := h.phase l rfl
  have hfound : ∀ l', some l = some l' → tr.listed = some l' := fun l' hl' => hl' ▸ hlist
  have hdue := h.due l hlist w (List.mem_of_getElem? hw)
  -- a worker that makes no call, and comes to no end with its file
  have hidle : ∀ {w' : Worker} {next' failed' : Nat} {log' : Log}, log'.listed = log.listed →
      log'.whole = log.whole → log'.dirs = log.dirs → log'.outcomes = log.outcomes →
      w'.Due k r.op r.dst l tr.deeds → Borne k r.op r.src r.dst log' (tr.after (some l) none t t)
        (.working l (ws.set i w') next' failed') := by
    intro w' next' failed' log' h₁ h₂ h₃ h₄ hd
    rw [Trace.after_none hfound]
    have hnone : Borne k r.op r.src r.dst log' ⟨tr.listed, tr.deeds ++ []⟩
        (.working l (ws.set i w') next' failed') :=
      h.worked h₁ h₂ h₃ (fun o ho _ => .inl (h₄ ▸ ho)) (by rwa [List.append_nil])
    rwa [List.append_nil] at hnone
  -- the file of a worker has been sent by the call that it has made
  have hsent : ∀ {task : Task} {next' failed' : Nat} {t' : FileTree Bytes} {sf : Path}
      {rel : List String}, l.files[task.idx]? = some (sf, rel) →
      FileSent k r.op (tr.deeds ++ [⟨.file task.idx, t, t'⟩]) task.idx sf (target_path r.dst rel) →
      Borne k r.op r.src r.dst { log with outcomes := log.outcomes ++ [(task, true)] }
        (tr.after (some l) (some (.file task.idx)) t t')
        (.working l (ws.set i (.report task true)) next' failed') := by
    intro task next' failed' t' sf rel hf hsent
    rw [Trace.after_some hfound]
    refine h.worked rfl rfl rfl (fun o ho _ => ?_) trivial
    rcases List.mem_append.mp ho with ho | ho
    · exact .inl ho
    · obtain rfl := List.mem_singleton.mp ho
      refine .inr fun sf' rel' hf' => ?_
      obtain ⟨rfl, rfl⟩ := Prod.mk.inj (Option.some.inj (hf.symm.trans hf'))
      exact hsent
  cases hy with
  | announced task sf rel hg =>
      unfold Runner.first
      split
      · rename_i hc
        exact hidle rfl rfl rfl rfl hc.1
      · exact hidle rfl rfl rfl rfl trivial
  | renamed task sf rel t' hg hr =>
      refine hsent hg (.inl ⟨hdue, _, List.mem_append_right _ List.mem_cons_self, rfl, ?_⟩)
      rw [target_path_eq]
      exact .of_rename hr
  | unrenamed task sf rel e hg hr =>
      -- it falls back
      have hfb := hs sf rel e hg (by simpa using hr)
      simp only [hfb, if_true]
      rw [show (Worker.rename task).aim = some (.file task.idx) from rfl, Trace.after_some hfound]
      exact h.worked rfl rfl rfl (fun o ho _ => .inl ho) trivial
  | copied task sf rel t' m hg hcp =>
      have hc : FileCopied k t t' sf (target_path r.dst rel) := by
        refine .of_copy_file (by simpa using hcp) (hs sf rel hg).2
      by_cases hop : r.op = .move
      · simp only [hop, if_true]
        rw [show (Worker.copy task).aim = some (.file task.idx) from rfl, Trace.after_some hfound,
          ← hop]
        refine h.worked rfl rfl rfl (fun o ho _ => .inl ho) ⟨hop, fun sf' rel' hf' => ?_⟩
        obtain ⟨rfl, rfl⟩ := Prod.mk.inj (Option.some.inj (hg.symm.trans hf'))
        exact ⟨_, List.mem_append_right _ List.mem_cons_self, rfl, hc⟩
      · simp only [hop, if_false]
        exact hsent hg (.inr (.inl ⟨hop, _, List.mem_append_right _ List.mem_cons_self, rfl, hc⟩))
  | uncopied task sf rel t' e hg hcp => exact absurd (by simpa using hcp) ((hs sf rel hg).1 t' e)
  | removed task sf rel t' hg hr =>
      -- the copy was made before
      obtain ⟨hop, hcopied⟩ := hdue
      obtain ⟨d, hm, haim, hc⟩ := hcopied sf rel hg
      refine hsent hg (.inr (.inr ⟨hop, d, ⟨_, t, t'⟩, ?_, haim, rfl, hc,
        .of_remove_file hr⟩))
      exact (List.singleton_sublist.mpr hm).append (List.Sublist.refl [_])
  | unremoved task sf rel e hg hr => exact absurd hr (hs sf rel e hg)
  | _ => exact hidle rfl rfl rfl rfl trivial

/-- What was made is there. -/
theorem is_dir_of_made {t : FileTree Bytes} {f : Fault} {b : Path.Tail} {rel : List String}
    (hd : Named dst) (h : (create_dir_all k t (dst.down rel)
      (f.create_dir_all_at k t (dst.down rel) b)).2 = none) :
    k.is_dir (create_dir_all k t (dst.down rel)
      (f.create_dir_all_at k t (dst.down rel) b)).1 (dst.down rel) = true := by
  have hf := create_dir_all_ok h
  rw [hf] at h ⊢
  by_cases hp : (dst.down rel).comps = []
  · refine create_dir_all_is_dir ?_ h
    have hroot : (dst.down rel).root = true := by
      rcases hd with hd | hd
      · exact hd
      · simp [Path.down] at hp
        exact absurd hp.1 hd
    rw [Kernel.start, if_pos hroot]
    exact t.get_root
  · exact Kernel.create_dir_all_is_dir hp h

/-- **One event** of a move or a copy in which nothing fails. -/
theorem borne_step {t : FileTree Bytes} {r : Runner} {ev : Event} {y : FileTree Bytes × Runner}
    (ht : Tallied (r, log)) (hsm : SmoothAt r.job log r.phase)
    (h : Borne k r.op r.src r.dst log tr r.phase) (he : Smooth k r (t, ev))
    (hs : r.step k t ev = some y) :
    Borne k y.2.op y.2.src y.2.dst (log.after k t r ev y.2)
      (tr.after y.2.phase.listing (r.aim ev) t y.1) y.2.phase := by
  obtain ⟨hmake, hwork⟩ := he
  obtain ⟨-, -, hat⟩ := ht
  dsimp only at hmake hwork hat
  -- most events decide nothing, and are no calls on the file system
  have hquiet : ∀ {ph' : Phase} {log' : Log}, log'.listed = log.listed →
      log'.whole = log.whole → log'.outcomes = log.outcomes → log'.dirs = log.dirs →
      (∀ l, ph'.listing = some l → r.phase.listing = some l) → (∀ w ∈ ph'.crew, w = .idle) →
      Borne k r.op r.src r.dst log' (tr.after ph'.listing none t t) ph' := h.quiet
  cases Runner.step_cases hs with
  | started f hp =>
      simp only [Log.after, Runner.aim, hp]
      exact hquiet rfl rfl rfl rfl (by simp [Phase.listing]) (by simp [Phase.crew])
  | unwalked ev e' hp =>
      have haim : r.aim ev = none := by cases ev <;> simp [Runner.aim, hp]
      simp only [Log.after, haim, hp]
      exact hquiet rfl rfl rfl rfl (by simp [Phase.listing]) (by simp [Phase.crew])
  | walked fuel l hp hw =>
      -- nothing has been done before
      rw [hp] at hsm hat
      obtain ⟨-, hwhole, hdirs, -⟩ := hsm
      obtain ⟨-, -, -, -, hout, -⟩ := hat
      simp only [Log.after, Runner.aim, hp, Trace.after, Phase.listing, Option.some_or,
        Option.toList_none, List.map_nil, List.append_nil]
      refine ⟨h.named, rfl, fun _ => id, fun hn => (by cases hn), fun hw' => ?_,
        fun _ _ o ho => ?_, fun _ _ n hn => ?_, fun _ _ w hw => ?_⟩
      · exact absurd (hwhole.symm.trans hw') (by simp)
      · rw [show log.outcomes = [] from hout] at ho
        cases ho
      · rw [show log.dirs = [] from hdirs] at hn
        cases hn
      · cases hw
  | checked_fast f l hp hop hsd hx =>
      simp only [Log.after, Runner.aim, hp]
      exact hquiet rfl rfl rfl rfl (by simp [Phase.listing, hp]) (by simp [Phase.crew])
  | checked_slow f l hp =>
      simp only [Log.after, Runner.aim, hp]
      exact hquiet rfl rfl rfl rfl (by simp [Phase.listing, hp]) (by simp [Phase.crew])
  | renamed_tree f l t' hp hr hok =>
      have hl := h.phase l (by rw [hp]; rfl)
      simp only [Log.after, Runner.aim, hp]
      exact h.called hl rfl rfl (fun _ => .inr ⟨rfl, .of_rename hr⟩) (fun _ hn => .inl hn)
        (by simp [Phase.listing]) rfl
  | unrenamed_tree f l hp =>
      have hl := h.phase l (by rw [hp]; rfl)
      simp only [Log.after, Runner.aim, hp]
      exact h.called hl rfl rfl .inl (fun _ hn => .inl hn) (by simp [Phase.listing, hp]) rfl
  | made f l n rel hp hrel =>
      have hl := h.phase l (by rw [hp]; rfl)
      have hok := hmake l n rel f hp rfl hrel
      rw [target_path_eq] at hok
      simp only [Log.after, Runner.aim, hp, hrel, target_path_eq, hok, Option.isNone_none, if_true,
        Option.map_some]
      refine h.called hl rfl rfl .inl (fun m hm => ?_) (by simp [Phase.listing, hp]) rfl
      rcases List.mem_append.mp hm with hm | hm
      · exact .inl hm
      · obtain rfl := List.mem_singleton.mp hm
        refine .inr ⟨rfl, fun rel' hrel' => ?_⟩
        obtain rfl := Option.some.inj (hrel.symm.trans hrel')
        rw [target_path_eq]
        exact is_dir_of_made h.named hok
  | spawned f l n hp hrel =>
      have hcrew : ∀ w ∈ (Phase.working l (List.replicate r.nthreads .idle) 0 0).crew, w = .idle :=
        fun w hw => List.eq_of_mem_replicate hw
      simp only [Log.after, Runner.aim, hp, hrel, Option.map_none]
      exact hquiet rfl rfl rfl rfl (by simp [Phase.listing, hp]) hcrew
  | worked i f l ws next failed worker y hp hw hy' =>
      have hset : (ws.set i y.2.2.2.2)[i]? = some y.2.2.2.2 := Pool.set_self hw
      rw [hp] at h
      simp only [Log.after, Runner.aim, hp, hw, hset, Option.bind_some]
      exact h.work hw (hwork l ws next failed i f worker hp rfl hw) hy'
  | joined f l ws next failed hp hws =>
      simp only [Log.after, Runner.aim, hp]
      exact hquiet rfl rfl rfl rfl (by simp [Phase.listing, hp]) (by simp [Phase.crew])
  | cleaned f l hp hop =>
      simp only [Log.after, Runner.aim, hp]
      exact h.quiet rfl rfl rfl rfl (by simp [Phase.listing]) (by simp [Phase.crew])
  | kept f l failed hp hnc =>
      simp only [Log.after, Runner.aim, hp]
      exact hquiet rfl rfl rfl rfl (by simp [Phase.listing]) (by simp [Phase.crew])
  | ended f hp =>
      simp only [Log.after, Runner.aim, hp]
      exact hquiet rfl rfl rfl rfl (by simp [Phase.listing]) (by simp [Phase.crew])

end

/-! ### Once the job has ended -/

section

variable {k : Kernel} {r : Runner} {log : Log} {tr : Trace Listing} {ph : Phase}

/-- What the log has as done has been delivered. -/
theorem Borne.delivered (h : Borne k r.op r.src r.dst log tr ph) (hall : log.all_done) :
    Delivered k r tr := by
  rcases hall with hw | ⟨n, m, hl, hfiles, hdirs⟩
  · exact .inl (h.whole hw)
  · rw [h.listed] at hl
    obtain ⟨l, hlist, heq⟩ := Option.map_eq_some_iff.mp hl
    obtain ⟨rfl, rfl⟩ := Prod.mk.inj heq
    refine .inr ⟨l, hlist, fun i sf rel hf => ?_, fun i rel hrel => ?_⟩
    · obtain ⟨o, ho, rfl, hok⟩ := hfiles i (List.getElem?_eq_some_iff.mp hf).1
      exact h.files l hlist o ho hok sf rel hf
    · exact h.dirs l hlist i (hdirs i (List.getElem?_eq_some_iff.mp hrel).1) rel hrel

/-- Nothing was listed, so nothing was done. -/
theorem Borne.not_delivered (h : Borne k r.op r.src r.dst log tr ph) (hl : log.listed = none) :
    ¬ Delivered k r tr := by
  rw [h.listed, Option.map_eq_none_iff] at hl
  rintro (⟨d, hm, -⟩ | ⟨l, hlist, -⟩)
  · rw [h.fresh hl] at hm
    cases hm
  · rw [hl] at hlist
    cases hlist

end

/-! ## Deletions -/

/-- The worker is about to count a failure. -/
def Remover.failing : Remover → Nat
  | .fail _ _ => 1
  | _ => 0

/-- The directories that are left are those before `n`, and the count of failures
says whether anything before was not removed. -/
structure Counted (r : Removals) (n failed : Nat) (log : Log) : Prop where
  listed : log.listed = some (r.files.length, r.dirs.length)
  whole : log.whole = false
  decided : log.decided.Perm (List.range r.files.length)
  dirs : ∀ m ∈ log.dirs, n ≤ m
  failed : failed = 0 ↔ log.failed = [] ∧ ∀ m, n ≤ m → m < r.dirs.length → m ∈ log.dirs

/-- What holds of a deletion in each phase. -/
def HonestAt (job : Job) (log : Log) : Clearing → Prop
  | .working r ws _ failed => log.listed = some (r.files.length, r.dirs.length) ∧
      log.whole = false ∧ log.dirs = [] ∧
      failed + (ws.map Remover.failing).sum = log.failed.length
  | .clearing r n failed => Counted r n failed log
  | .emptying r n failed => Counted r (n + 1) failed log
  | .finished => Truthful job log.all_done
  | _ => log.listed = none ∧ log.whole = false ∧ log.dirs = [] ∧ log.failed = []

section

variable {k : Kernel} {log : Log} {r : Removals} {n failed : Nat}

/-- Nothing is left: the count decides. -/
theorem Counted.all_done (h : Counted r 0 failed log) : failed = 0 ↔ log.all_done := by
  rw [h.failed]
  constructor
  · rintro ⟨hf, hd⟩
    exact .inr ⟨_, _, h.listed, fun i hi => Log.files_done h.decided hf hi,
      fun i hi => hd i (Nat.zero_le _) hi⟩
  · rintro (hw | ⟨n, m, hl, hfiles, hdirs⟩)
    · rw [h.whole] at hw
      cases hw
    · rw [h.listed] at hl
      cases hl
      refine ⟨Log.failed_nil ?_ ?_ hfiles, fun i _ hi => hdirs i hi⟩
      · exact h.decided.nodup_iff.mpr List.nodup_range
      · intro i hi
        exact List.mem_range.mp (h.decided.mem_iff.mp hi)

/-- A call of a worker of a deletion. -/
theorem erase_honest {t : FileTree Bytes} {d : Deleter} {next i : Nat} {f : Fault}
    {ws : List Remover} {w : Remover} {y : FileTree Bytes × Job × Nat × Nat × Remover}
    (hw : ws[i]? = some w) (hc : failed + (ws.map Remover.failing).sum = log.failed.length)
    (hy : Deleter.WorkCase k t d r next failed f w y) :
    y.2.2.2.1 + ((ws.set i y.2.2.2.2).map Remover.failing).sum
        = (log.erase w y.2.2.2.2).failed.length ∧
      (log.erase w y.2.2.2.2).listed = log.listed ∧ (log.erase w y.2.2.2.2).dirs = log.dirs ∧
      (log.erase w y.2.2.2.2).whole = log.whole := by
  have hsum := fun v => Pool.sum_set Remover.failing v hw
  -- the log of failures grows when the worker comes to count one
  cases hy with
  | unremoved idx p e hp hr =>
      refine ⟨?_, rfl, rfl, rfl⟩
      have := hsum (.fail idx e)
      simp only [Remover.failing] at this
      show failed + ((ws.set i (.fail idx e)).map Remover.failing).sum
        = (log.erase (.remove idx) (.fail idx e)).failed.length
      have hlen : (log.erase (.remove idx) (.fail idx e)).failed.length
          = log.failed.length + 1 := by
        simp [Log.erase, Log.failed, List.filter_append]
      omega
  | removed idx p t' hp hr =>
      refine ⟨?_, rfl, rfl, rfl⟩
      have := hsum (.count idx)
      simp only [Remover.failing] at this
      show failed + ((ws.set i (.count idx)).map Remover.failing).sum
        = (log.erase (.remove idx) (.count idx)).failed.length
      have hlen : (log.erase (.remove idx) (.count idx)).failed.length = log.failed.length := by
        simp [Log.erase, Log.failed, List.filter_append]
      omega
  | failed idx e =>
      refine ⟨?_, rfl, rfl, rfl⟩
      have := hsum (.note idx e)
      simp only [Remover.failing] at this
      show failed + 1 + ((ws.set i (.note idx e)).map Remover.failing).sum = log.failed.length
      omega
  | drained hnone =>
      refine ⟨?_, rfl, rfl, rfl⟩
      have := hsum .stopped
      simp only [Remover.failing] at this
      show failed + ((ws.set i .stopped).map Remover.failing).sum = log.failed.length
      omega
  | taken p hp =>
      refine ⟨?_, rfl, rfl, rfl⟩
      have := hsum (.announce next)
      simp only [Remover.failing] at this
      show failed + ((ws.set i (.announce next)).map Remover.failing).sum = log.failed.length
      omega
  | announced idx p hp =>
      refine ⟨?_, rfl, rfl, rfl⟩
      have := hsum (.remove idx)
      simp only [Remover.failing] at this
      show failed + ((ws.set i (.remove idx)).map Remover.failing).sum = log.failed.length
      omega
  | counted idx =>
      refine ⟨?_, rfl, rfl, rfl⟩
      have := hsum .idle
      simp only [Remover.failing] at this
      show failed + ((ws.set i .idle).map Remover.failing).sum = log.failed.length
      omega
  | noted idx p e hp =>
      refine ⟨?_, rfl, rfl, rfl⟩
      have := hsum .idle
      simp only [Remover.failing] at this
      show failed + ((ws.set i .idle).map Remover.failing).sum = log.failed.length
      omega

/-- **One event** of a deletion. -/
theorem honest_step {x x' : Deleter × Log} {e : FileTree Bytes × Event} (hs₀ : Swept x)
    (h : HonestAt x.1.job x.2 x.1.phase) (hs : erasing k x e = some x') :
    HonestAt x'.1.job x'.2 x'.1.phase := by
  obtain ⟨d, log⟩ := x
  obtain ⟨t, ev⟩ := e
  obtain ⟨-, -, hat⟩ := hs₀
  dsimp only at h hat
  obtain ⟨y, hy, rfl⟩ := Option.map_eq_some_iff.mp hs
  dsimp only at hy
  cases Deleter.step_cases hy with
  | started f hp =>
      rw [hp] at h
      simp only [Log.after_erase, hp]
      exact h
  | single f hp hc =>
      rw [hp] at h
      simp only [Log.after_erase, hp]
      exact h
  | many f hp hc =>
      rw [hp] at h
      simp only [Log.after_erase, hp]
      exact h
  | removed f t' hp hr hb =>
      simp only [Log.after_erase, hp]
      exact truthful_done rfl (.inl (by simp))
  -- a single file that stays makes the record an error, and the log has nothing done
  | unremoved f e' hp hr =>
      rw [hp] at h
      obtain ⟨hl, hw, -, -⟩ := h
      simp only [Log.after_erase, hp]
      refine truthful_error rfl (Log.not_all_done hl ?_)
      have hne : d.job.done_files ≠ d.job.done_files + 1 := by omega
      simp [Job.failed_with]
  | walked fuel r hp hw =>
      rw [hp] at h
      obtain ⟨-, hw', hd, hf⟩ := h
      simp only [Log.after_erase, hp]
      refine ⟨rfl, hw', hd, ?_⟩
      -- no worker is about to report a failure before it has taken a file
      have hzero : ((List.replicate d.nthreads Remover.idle).map Remover.failing).sum = 0 := by
        simp [Remover.failing]
      show 0 + _ = log.failed.length
      rw [hzero, hf]
      rfl
  | unwalked fuel e' hp hw =>
      rw [hp] at h
      obtain ⟨hl, hw', -, -⟩ := h
      simp only [Log.after_erase, hp]
      exact truthful_error rfl (Log.not_all_done hl hw')
  | hindered f e' hp hf =>
      rw [hp] at h
      obtain ⟨hl, hw', -, -⟩ := h
      simp only [Log.after_erase, hp]
      exact truthful_error rfl (Log.not_all_done hl hw')
  | worked i f r ws next failed worker y hp hw hy' =>
      rw [hp] at h
      obtain ⟨hl, hw', hd, hc⟩ := h
      have hset : (ws.set i y.2.2.2.2)[i]? = some y.2.2.2.2 := Pool.set_self hw
      simp only [Log.after_erase, hp, hw, hset]
      obtain ⟨h₁, h₂, h₃, h₄⟩ := erase_honest hw hc hy'
      exact ⟨h₂.trans hl, h₄.trans hw', h₃.trans hd, h₁⟩
  | joined f r ws next failed hp hws =>
      rw [hp] at h hat
      obtain ⟨hl, hw', hd, hc⟩ := h
      obtain ⟨hsweep, -, ht, -⟩ := hat
      -- all workers have stopped, so none of them owes the count a failure
      have hover := hsweep.over ht hws rfl
      have hzero : (ws.map Remover.failing).sum = 0 := by
        rw [List.sum_eq_zero_iff_forall_eq_nat]
        intro b hb
        obtain ⟨w, hw, rfl⟩ := List.mem_map.mp hb
        rw [hws w hw]
        rfl
      simp only [Log.after_erase, hp]
      refine ⟨hl, hw', ht ▸ hover.decided, ?_, ?_⟩
      · intro m hm
        rw [show log.dirs = [] from hd] at hm
        cases hm
      · constructor
        · intro hf
          refine ⟨List.eq_nil_of_length_eq_zero ?_, fun m h₁ h₂ => by omega⟩
          show log.failed.length = 0
          omega
        · rintro ⟨hf, -⟩
          have hlen : log.failed.length = 0 := congrArg List.length hf
          omega
  | announced f r n failed p hp hn =>
      rw [hp] at h
      simp only [Log.after_erase, hp]
      exact ⟨h.listed, h.whole, h.decided, h.dirs, h.failed⟩
  | cleared f r n failed p t' hp hn hr hb =>
      rw [hp] at h
      have hlt := (List.getElem?_eq_some_iff.mp hn).1
      simp only [Log.after_erase, hp, if_true]
      refine ⟨h.listed, h.whole, h.decided, ?_, ?_⟩
      · intro m hm
        rcases List.mem_append.mp hm with hm | hm
        · exact Nat.le_of_succ_le (h.dirs m hm)
        · rw [List.mem_singleton.mp hm]
      · rw [h.failed]
        constructor
        · rintro ⟨hf, hd⟩
          refine ⟨hf, fun m h₁ h₂ => ?_⟩
          by_cases hmn : m = n
          · rw [hmn]
            exact List.mem_append_right _ List.mem_cons_self
          · exact List.mem_append_left _ (hd m (by omega) h₂)
        · rintro ⟨hf, hd⟩
          refine ⟨hf, fun m h₁ h₂ => ?_⟩
          rcases List.mem_append.mp (hd m (by omega) h₂) with hm | hm
          · exact hm
          · rw [List.mem_singleton.mp hm] at h₁
            omega
  | uncleared f r n failed p e' hp hn hr =>
      rw [hp] at h
      have hlt := (List.getElem?_eq_some_iff.mp hn).1
      simp only [Log.after_erase, hp, Nat.succ_ne_self, if_false]
      refine ⟨h.listed, h.whole, h.decided, fun m hm => Nat.le_of_succ_le (h.dirs m hm), ?_⟩
      -- the count is of the failures from here up, so with this one removed it says the same
      -- of the rest
      constructor
      · intro hf
        cases hf
      · -- the directory that was not removed is missing from the log
        rintro ⟨-, hd⟩
        have := h.dirs n (hd n (Nat.le_refl _) hlt)
        omega
  | ended f r failed hp =>
      rw [hp] at h
      simp only [Log.after_erase, hp]
      -- the count decides the status, and it is zero if and only if everything is done
      by_cases hf : failed = 0
      · exact truthful_done (if_pos hf) (h.all_done.mp hf)
      · exact truthful_error (if_neg hf) fun hd => hf (h.all_done.mpr hd)

end

/-! ### The log and the trace -/

/-- What the log has as removed is what the calls of the trace have removed. -/
structure Shown (k : Kernel) (src : Path) (log : Log) (tr : Trace Removals) (ph : Clearing) :
    Prop where
  listed : log.listed = tr.listed.map fun r => (r.files.length, r.dirs.length)
  phase : ∀ r, ph.listing = some r → tr.listed = some r
  fresh : ph.listing = none → ph ≠ .finished → tr.deeds = []
  whole : log.whole = true ↔ Struck k tr.deeds .whole src
  files : ∀ r, tr.listed = some r → ∀ n p, r.files[n]? = some p →
    ((∃ o ∈ log.outcomes, o.1.idx = n ∧ o.2 = true) ↔ Struck k tr.deeds (.file n) p)
  dirs : ∀ r, tr.listed = some r → ∀ n p, r.dirs[n]? = some p →
    (n ∈ log.dirs ↔ Struck k tr.deeds (.dir n) p)

section

variable {k : Kernel} {src p : Path} {log log' : Log} {tr : Trace Removals} {ph ph' : Clearing}
variable {t t' : FileTree Bytes} {ds : List Deed} {a b : Aim} {r : Removals} {n : Nat}

theorem not_struck_nil : ¬ Struck k [] a p := fun ⟨_, hm, _⟩ => by cases hm

/-- A deletion that has not begun. -/
theorem shown_start : Shown k src .empty .empty .queued where
  listed := rfl
  phase r hr := by cases hr
  fresh _ _ := rfl
  whole := ⟨fun hw => (by cases hw), fun hs => absurd hs not_struck_nil⟩
  files r hr := by cases hr
  dirs r hr := by cases hr

/-- One more call. -/
theorem struck_concat : Struck k (ds ++ [⟨a, t, t'⟩]) b p ↔
    Struck k ds b p ∨ a = b ∧ EntryGone k t t' p := by
  constructor
  · rintro ⟨d, hm, rfl, hg⟩
    rcases List.mem_append.mp hm with hm | hm
    · exact .inl ⟨d, hm, rfl, hg⟩
    · obtain rfl := List.mem_singleton.mp hm
      exact .inr ⟨rfl, hg⟩
  · rintro (⟨d, hm, h⟩ | ⟨rfl, hg⟩)
    · exact ⟨d, List.mem_append_left _ hm, h⟩
    · exact ⟨_, List.mem_append_right _ List.mem_cons_self, rfl, hg⟩

/-- An event without a call, that decides nothing. -/
theorem Shown.quiet (h : Shown k src log tr ph) (hl : log'.listed = log.listed)
    (hw : log'.whole = log.whole) (ho : log'.outcomes = log.outcomes) (hd : log'.dirs = log.dirs)
    (hp : ∀ r, ph'.listing = some r → ph.listing = some r)
    (hfresh : ph'.listing = none → ph' ≠ .finished → ph.listing = none ∧ ph ≠ .finished) :
    Shown k src log' (tr.after ph'.listing none t t') ph' := by
  rw [Trace.after_none fun r hr => h.phase r (hp r hr)]
  refine ⟨hl.trans h.listed, fun r hr => h.phase r (hp r hr), fun h₁ h₂ => ?_, ?_, ?_, ?_⟩
  · obtain ⟨h₁, h₂⟩ := hfresh h₁ h₂
    exact h.fresh h₁ h₂
  · rw [hw]
    exact h.whole
  · rw [ho]
    exact h.files
  · rw [hd]
    exact h.dirs

/-- A call. -/
theorem Shown.called (h : Shown k src log tr ph) (hl : log'.listed = log.listed)
    (hw : log'.whole = true ↔ log.whole = true ∨ a = .whole ∧ EntryGone k t t' src)
    (hf : ∀ r, tr.listed = some r → ∀ n p, r.files[n]? = some p →
      ((∃ o ∈ log'.outcomes, o.1.idx = n ∧ o.2 = true) ↔
        (∃ o ∈ log.outcomes, o.1.idx = n ∧ o.2 = true) ∨ a = .file n ∧ EntryGone k t t' p))
    (hd : ∀ r, tr.listed = some r → ∀ n p, r.dirs[n]? = some p →
      (n ∈ log'.dirs ↔ n ∈ log.dirs ∨ a = .dir n ∧ EntryGone k t t' p))
    (hp : ∀ r, ph'.listing = some r → ph.listing = some r)
    (hfresh : ph'.listing = none → ph' = .finished) :
    Shown k src log' (tr.after ph'.listing (some a) t t') ph' := by
  rw [Trace.after_some fun r hr => h.phase r (hp r hr)]
  refine ⟨hl.trans h.listed, fun r hr => h.phase r (hp r hr), fun h₁ h₂ => absurd (hfresh h₁) h₂,
    ?_, fun r hr n p hn => ?_, fun r hr n p hn => ?_⟩
  · rw [struck_concat, hw, h.whole]
  · rw [struck_concat, hf r hr n p hn, h.files r hr n p hn]
  · rw [struck_concat, hd r hr n p hn, h.dirs r hr n p hn]

/-- A deletion has done what its log says. -/
theorem Shown.demolished {d : Deleter} (h : Shown k d.src log tr ph) :
    log.all_done ↔ Demolished k d tr := by
  unfold Log.all_done Demolished
  rw [h.whole]
  refine or_congr Iff.rfl ⟨?_, ?_⟩
  · rintro ⟨n, m, hl, hfiles, hdirs⟩
    rw [h.listed] at hl
    obtain ⟨r, hr, heq⟩ := Option.map_eq_some_iff.mp hl
    obtain ⟨rfl, rfl⟩ := Prod.mk.inj heq
    refine ⟨r, hr, fun i p hp => ?_, fun i p hp => ?_⟩
    · exact (h.files r hr i p hp).mp (hfiles i (List.getElem?_eq_some_iff.mp hp).1)
    · exact (h.dirs r hr i p hp).mp (hdirs i (List.getElem?_eq_some_iff.mp hp).1)
  · rintro ⟨r, hr, hfiles, hdirs⟩
    refine ⟨_, _, by rw [h.listed, hr]; rfl, fun i hi => ?_, fun i hi => ?_⟩
    · have hp := List.getElem?_eq_getElem hi
      exact (h.files r hr i _ hp).mpr (hfiles i _ hp)
    · have hp := List.getElem?_eq_getElem hi
      exact (h.dirs r hr i _ hp).mpr (hdirs i _ hp)

/-- A call of a worker of a deletion. -/
theorem Shown.work {d : Deleter} {ws : List Remover} {next failed i : Nat} {f : Fault}
    {w : Remover} {y : FileTree Bytes × Job × Nat × Nat × Remover}
    (h : Shown k src log tr (.working r ws next failed))
    (hy : Deleter.WorkCase k t d r next failed f w y) :
    Shown k src (log.erase w y.2.2.2.2) (tr.after (some r) w.aim t y.1)
      (.working r (ws.set i y.2.2.2.2) y.2.2.1 y.2.2.2.1) := by
  have hlist := h.phase r rfl
  have hidle : ∀ {log' : Log} {ws' : List Remover} {next' failed' : Nat},
      log'.listed = log.listed → log'.whole = log.whole → log'.outcomes = log.outcomes →
      log'.dirs = log.dirs → Shown k src log' (tr.after (some r) none t t)
        (.working r ws' next' failed') := by
    intro log' ws' next' failed' h₁ h₂ h₃ h₄
    show Shown _ _ _ (tr.after (Clearing.working r ws' next' failed').listing _ _ _) _
    exact h.quiet h₁ h₂ h₃ h₄ (fun _ => id) (fun hn => by cases hn)
  -- the outcome of the one call that a worker makes for its file
  have hcall : ∀ {idx : Nat} {p : Path} {ok : Bool} {t' : FileTree Bytes} {ws' : List Remover}
      {next' failed' : Nat}, r.files[idx]? = some p → (ok = true ↔ EntryGone k t t' p) →
      Shown k src { log with outcomes := log.outcomes ++ [(⟨idx, 0⟩, ok)] }
        (tr.after (some r) (some (.file idx)) t t') (.working r ws' next' failed') := by
    intro idx p ok t' ws' next' failed' hp hiff
    show Shown _ _ _ (tr.after (Clearing.working r ws' next' failed').listing _ _ _) _
    refine h.called rfl (by simp) (fun r' hr' n q hq => ?_) (by simp) (fun _ => id)
      (fun hn => by cases hn)
    obtain rfl := Option.some.inj (hlist.symm.trans hr')
    simp only [List.mem_append, List.mem_singleton, Aim.file.injEq]
    constructor
    · rintro ⟨o, ho | rfl, hidx, hok⟩
      · exact .inl ⟨o, ho, hidx, hok⟩
      · obtain rfl : idx = n := hidx
        obtain rfl := Option.some.inj (hp.symm.trans hq)
        exact .inr ⟨rfl, hiff.mp hok⟩
    · rintro (⟨o, ho, h⟩ | ⟨rfl, hg⟩)
      · exact ⟨o, .inl ho, h⟩
      · obtain rfl := Option.some.inj (hp.symm.trans hq)
        exact ⟨_, .inr rfl, rfl, hiff.mpr hg⟩
  cases hy with
  | removed idx p t' hp hr =>
      exact hcall hp ⟨fun _ => .of_remove_file (remove_file_ok hr), fun _ => rfl⟩
  | unremoved idx p e hp hr =>
      exact hcall hp ⟨fun hf => (by cases hf), fun hg => absurd hg not_entryGone_self⟩
  | _ => exact hidle rfl rfl rfl rfl

/-- **One event** of a deletion. -/
theorem shown_step {d : Deleter} {ev : Event} {y : FileTree Bytes × Deleter}
    (hsw : Swept (d, log)) (hh : HonestAt d.job log d.phase) (h : Shown k d.src log tr d.phase)
    (hs : d.step k t ev = some y) :
    Shown k y.2.src (log.after_erase d ev y.2) (tr.after y.2.phase.listing (d.aim ev) t y.1)
      y.2.phase := by
  obtain ⟨-, -, hat⟩ := hsw
  dsimp only at hat
  -- most events decide nothing, and are no calls on the file system
  have hquiet : ∀ {ph' : Clearing} {log' : Log}, log'.listed = log.listed →
      log'.whole = log.whole → log'.outcomes = log.outcomes → log'.dirs = log.dirs →
      (∀ r, ph'.listing = some r → d.phase.listing = some r) →
      (ph'.listing = none → ph' ≠ .finished → d.phase.listing = none ∧ d.phase ≠ .finished) →
      Shown k d.src log' (tr.after ph'.listing none t t) ph' := h.quiet
  cases Deleter.step_cases hs with
  | started f hp =>
      simp only [Log.after_erase, Deleter.aim, hp]
      exact hquiet rfl rfl rfl rfl (by simp [Clearing.listing]) (by simp [hp, Clearing.listing])
  | single f hp hc =>
      simp only [Log.after_erase, Deleter.aim, hp]
      exact hquiet rfl rfl rfl rfl (by simp [Clearing.listing]) (by simp [hp, Clearing.listing])
  | many f hp hc =>
      simp only [Log.after_erase, Deleter.aim, hp]
      exact hquiet rfl rfl rfl rfl (by simp [Clearing.listing]) (by simp [hp, Clearing.listing])
  | removed f t' hp hr hb =>
      have hgone : EntryGone k t t' d.src := .of_remove_file (remove_file_ok hr)
      simp only [Log.after_erase, Deleter.aim, hp, decide_true]
      exact h.called rfl (by simp [hgone]) (by simp) (by simp) (by simp [Clearing.listing])
        fun _ => rfl
  | unremoved f e' hp hr =>
      rw [hp] at hh
      obtain ⟨-, hw, -, -⟩ := hh
      have hne : d.job.done_files ≠ d.job.done_files + 1 := by omega
      simp only [Log.after_erase, Deleter.aim, hp]
      exact h.called rfl (by simp [Job.failed_with, hw, not_entryGone_self]) (by simp) (by simp)
        (by simp [Clearing.listing]) fun _ => rfl
  | walked fuel r hp hw hb =>
      -- nothing has been removed before
      rw [hp] at hh hat
      obtain ⟨-, hwhole, hdirs, -⟩ := hh
      obtain ⟨-, -, -, -, hout, -⟩ := hat
      have hds := h.fresh (by rw [hp]; rfl) (by rw [hp]; simp)
      simp only [Log.after_erase, Deleter.aim, hp, Trace.after, Clearing.listing, Option.some_or,
        Option.toList_none, List.map_nil, List.append_nil, hds]
      refine ⟨rfl, fun _ => id, fun hn => (by cases hn), ?_, fun _ _ n p _ => ?_,
        fun _ _ n p _ => ?_⟩
      · simp [hwhole, not_struck_nil]
      · simp [hout, not_struck_nil]
      · simp [hdirs, not_struck_nil]
  | unwalked fuel e' hp hw =>
      simp only [Log.after_erase, Deleter.aim, hp]
      exact hquiet rfl rfl rfl rfl (by simp [Clearing.listing]) (by simp)
  | hindered f e' hp hf =>
      simp only [Log.after_erase, Deleter.aim, hp]
      exact hquiet rfl rfl rfl rfl (by simp [Clearing.listing]) (by simp)
  | worked i f r ws next failed worker y hp hw hy' =>
      have hset : (ws.set i y.2.2.2.2)[i]? = some y.2.2.2.2 := Pool.set_self hw
      rw [hp] at h
      simp only [Log.after_erase, Deleter.aim, hp, hw, hset, Option.bind_some]
      exact h.work hy'
  | joined f r ws next failed hp hws =>
      simp only [Log.after_erase, Deleter.aim, hp]
      exact hquiet rfl rfl rfl rfl (by simp [Clearing.listing, hp]) (by simp [Clearing.listing])
  | announced f r n failed p hp hn =>
      simp only [Log.after_erase, Deleter.aim, hp]
      exact hquiet rfl rfl rfl rfl (by simp [Clearing.listing, hp]) (by simp [Clearing.listing])
  | cleared f r n failed p t' hp hn hr hb =>
      have hlist := h.phase r (by rw [hp]; rfl)
      have hgone : EntryGone k t t' p := .of_remove_dir (remove_dir_ok hr)
      simp only [Log.after_erase, Deleter.aim, hp, if_true]
      refine h.called rfl (by simp) (by simp) (fun r' hr' m q hq => ?_)
        (by simp [Clearing.listing, hp]) (by simp [Clearing.listing])
      obtain rfl := Option.some.inj (hlist.symm.trans hr')
      simp only [List.mem_append, List.mem_singleton, Aim.dir.injEq]
      refine or_congr Iff.rfl ⟨?_, fun hm => hm.1.symm⟩
      rintro rfl
      obtain rfl := Option.some.inj (hn.symm.trans hq)
      exact ⟨rfl, hgone⟩
  | uncleared f r n failed p e' hp hn hr =>
      simp only [Log.after_erase, Deleter.aim, hp, Nat.succ_ne_self, if_false]
      exact h.called rfl (by simp) (by simp) (by simp [not_entryGone_self])
        (by simp [Clearing.listing, hp]) (by simp [Clearing.listing])
  | ended f r failed hp =>
      simp only [Log.after_erase, Deleter.aim, hp]
      exact hquiet rfl rfl rfl rfl (by simp [Clearing.listing]) (by simp)

end

/-! ## The status is truthful -/

/-- **The status of a job is truthful**, for a move or a copy in which no
`create_dir_all` and no transfer of a file fails and no file is copied onto itself,
and for every deletion: `done` when everything listed was done, and `error`
otherwise, whatever the schedule and whatever else happens to the tree. -/
theorem status_truthful (k : Kernel) (h : Host) :
    (∀ (op : Op) (src dst : PathBuf) (x : Runner × Trace Listing), Named dst.path →
      Reach (watched k) (fun x => Smooth k x.1) (spawn h op src dst, .empty) x →
      x.1.phase = .finished → Truthful x.1.job (Delivered k x.1 x.2)) ∧
    ∀ (src : PathBuf) (x : Deleter × Trace Removals),
      Reach (watching k) Any (Deleter.start h src, .empty) x → x.1.phase = .finished →
      Truthful x.1.job (Demolished k x.1 x.2) := by
  refine ⟨fun op src dst x hd hx hend => ?_, fun src x hx hend => ?_⟩
  · have hinv : ∃ log, Tallied (x.1, log) ∧ SmoothAt x.1.job log x.1.phase ∧
        Borne k x.1.op x.1.src x.1.dst log x.2 x.1.phase := by
      refine hx.inv (I := fun x => ∃ log, Tallied (x.1, log) ∧ SmoothAt x.1.job log x.1.phase ∧
        Borne k x.1.op x.1.src x.1.dst log x.2 x.1.phase)
        ⟨.empty, tallied_start h op src dst, ?_, borne_start hd⟩ ?_
      · exact show SmoothAt _ .empty .queued from ⟨rfl, rfl, rfl, rfl⟩
      · rintro ⟨r, tr⟩ ⟨t, ev⟩ x' ⟨log, ht, hsm, hb⟩ he hs
        obtain ⟨y, hy, rfl⟩ := Option.map_eq_some_iff.mp hs
        have hlog : logged k (r, log) (t, ev) = some (y.2, log.after k t r ev y.2) := by
          simp only [logged, hy, Option.map_some]
        exact ⟨_, tallied_step ht hlog, smooth_step ht hsm he hlog, borne_step ht hsm hb he hy⟩
    obtain ⟨log, -, hsm, hb⟩ := hinv
    rw [hend] at hsm
    rcases hsm with ⟨hst, hall⟩ | ⟨hst, hnone⟩
    · exact truthful_done hst (hb.delivered hall)
    · exact truthful_error hst (hb.not_delivered hnone)
  · have hinv : ∃ log, Swept (x.1, log) ∧ HonestAt x.1.job log x.1.phase ∧
        Shown k x.1.src log x.2 x.1.phase := by
      refine hx.inv (I := fun x => ∃ log, Swept (x.1, log) ∧ HonestAt x.1.job log x.1.phase ∧
        Shown k x.1.src log x.2 x.1.phase) ⟨.empty, swept_start h src, ?_, shown_start⟩ ?_
      · exact show HonestAt _ .empty .queued from ⟨rfl, rfl, rfl, rfl⟩
      · rintro ⟨d, tr⟩ ⟨t, ev⟩ x' ⟨log, ht, hh, hb⟩ - hs
        obtain ⟨y, hy, rfl⟩ := Option.map_eq_some_iff.mp hs
        have hlog : erasing k (d, log) (t, ev) = some (y.2, log.after_erase d ev y.2) := by
          simp only [erasing, hy, Option.map_some]
        exact ⟨_, swept_step ht hlog, honest_step ht hh hlog, shown_step ht hh hb hy⟩
    obtain ⟨log, -, hh, hb⟩ := hinv
    rw [hend] at hh
    exact Truthful.congr hh hb.demolished

/-- `Smooth`, as a test. -/
def smooth (k : Kernel) (r : Runner) (e : FileTree Bytes × Event) : Bool :=
  match r.phase, e.2 with
  | .making l n, .main f =>
    match l.dirs[n]? with
    | some rel =>
      let df := target_path r.dst rel
      (create_dir_all k e.1 df (f.create_dir_all_at k e.1 df (r.target_tail rel))).2.isNone
    | none => true
  | .working l ws _ _, .worker i f =>
    match ws[i]? with
    | some (.rename task) =>
      match l.files[task.idx]? with
      | some (sf, rel) =>
        let df := target_path r.dst rel
        match rename k e.1 sf df (f.rename_at k e.1 sf .none df (r.target_tail rel)) with
        | .ok _ => true
        | .error e => falls_back e
      | none => true
    | some (.copy task) =>
      match l.files[task.idx]? with
      | some (sf, rel) =>
        let df := target_path r.dst rel
        match copy_file k e.1 sf df (f.copy_file_at k e.1 sf .none df (r.target_tail rel)) with
        | (_, .ok _) => k.stat e.1 sf ≠ (k.place e.1 df).map fun x => x.1 ++ [x.2]
        | (_, .error _) => false
      | none => true
    | some (.remove task) =>
      match l.files[task.idx]? with
      | some (sf, _) =>
        match remove_file k e.1 sf f with
        | .ok _ => true
        | .error _ => false
      | none => true
    | _ => true
  | _, _ => true

theorem smooth_spec {k : Kernel} {r : Runner} {e : FileTree Bytes × Event}
    (h : smooth k r e = true) : Smooth k r e := by
  refine ⟨fun l n rel f hp he hn => ?_, fun l ws next failed i f w hp he hw => ?_⟩
  · simp only [smooth, hp, he, hn] at h
    simpa using h
  · cases w with
    | rename task =>
        intro sf rel er hf hr
        simp only [smooth, hp, he, hw, hf, hr] at h
        exact h
    | copy task =>
        intro sf rel hf
        simp only [smooth, hp, he, hw, hf] at h
        refine ⟨fun t' er hc => ?_, fun s d n hs hpl => ?_⟩
        · rw [hc] at h
          cases h
        · split at h
          · have hne := of_decide_eq_true h
            rw [hs, hpl, Option.map_some] at hne
            exact fun heq => hne (congrArg some heq)
          · cases h
    | remove task =>
        intro sf rel er hf hr
        simp only [smooth, hp, he, hw, hf, hr] at h
        cases h
    | _ => trivial

/-- A copy in which nothing fails, and a deletion in which a file cannot be
removed. -/
theorem status_truthful_pair :
    (∃ x : Runner × Trace Listing, x.1.phase = .finished ∧ x.1.job.status = .done ∧
      Truthful x.1.job (Delivered box x.1 x.2)) ∧
    ∃ x : Deleter × Trace Removals, x.1.phase = .finished ∧ x.1.job.status = .error ∧
      Truthful x.1.job (Demolished box x.1 x.2) := by
  have hcopy : (exec_if (watched box) (fun x => smooth box x.1)
      (spawn box_host .copy (.abs ["a"]) (.abs ["b"]), .empty)
      ([.main .none, .walk 3, .main .none, .main .none, .main .none, .worker 0 .none,
        .worker 0 .none, .worker 0 .none, .worker 0 .none, .worker 0 .none, .worker 0 .none,
        .worker 0 .none, .worker 0 .none, .worker 0 .none, .worker 0 .none, .worker 0 .none,
        .main .none, .main .none, .main .none].map fun e => (tree_f.with_ [] "b" .dir, e))).map
        (fun x => (x.1.phase, x.1.job.status)) = some (.finished, .done) := by
    decide
  have herase : (exec (watching box) (Deleter.start box_host (.abs ["a", "f"]), .empty)
      ([.main .none, .main .none, .main (.error .eacces)].map fun e => (tree_f, e))).map
        (fun x => (x.1.phase, x.1.job.status)) = some (.finished, .error) := by
    decide
  obtain ⟨x, hx, hout⟩ := Option.map_eq_some_iff.mp hcopy
  obtain ⟨y, hy, hout'⟩ := Option.map_eq_some_iff.mp herase
  simp only [Prod.mk.injEq] at hout hout'
  refine ⟨⟨x, hout.1, hout.2, ?_⟩, ⟨y, hout'.1, hout'.2, ?_⟩⟩
  · exact (status_truthful box box_host).1 .copy (.abs ["a"]) (.abs ["b"]) x (.inl rfl)
      (reach_of_exec_if (fun _ _ h => smooth_spec h) hx) hout.1
  · exact (status_truthful box box_host).2 (.abs ["a", "f"]) y (reach_of_exec hy) hout'.1

/-- A file is copied to where there is no directory for it: nothing is copied,
and the job ends `done`. -/
theorem status_done_nothing_copied : ¬ ∀ (k : Kernel) (h : Host) (op : Op) (src dst : PathBuf)
    (x : Runner × Trace Listing), Named dst.path →
      Reach (watched k) Any (spawn h op src dst, .empty) x → x.1.phase = .finished →
      Truthful x.1.job (Delivered k x.1 x.2) := by
  intro hall
  have hrun : (exec (watched box) (spawn box_host .copy (.abs ["a", "f"]) (.abs ["b", "f"]), .empty)
      ([.main .none, .walk 1, .main .none, .main .none, .worker 0 .none, .worker 0 .none,
        .worker 0 .none, .worker 0 .none, .worker 0 .none, .worker 0 .none, .worker 0 .none,
        .worker 0 .none, .main .none, .main .none, .main .none].map fun e => (tree_f, e))).map
        (fun x => (((x.1.phase, x.1.job.status), x.1.op, x.1.dst), x.2.listed,
          x.2.deeds.all fun d => d.aim = .file 0 ∧ box.stat d.after (.abs ["b", "f"]) = none))
      = some (((.finished, .done), .copy, .abs ["b", "f"]),
        some ⟨[(.abs ["a", "f"], [])], [], 1⟩, true) := by decide
  obtain ⟨x, hx, hout⟩ := Option.map_eq_some_iff.mp hrun
  simp only [Prod.mk.injEq] at hout
  obtain ⟨⟨⟨hend, hst⟩, hop, hdst⟩, hlist, hdeeds⟩ := hout
  -- no call has left anything at the destination, and none was for the whole
  have hdeed : ∀ d ∈ x.2.deeds, d.aim = .file 0 ∧ box.stat d.after (.abs ["b", "f"]) = none :=
    fun d hd => of_decide_eq_true (List.all_eq_true.mp hdeeds d hd)
  have htrue := hall box box_host .copy _ _ x (.inl rfl) (reach_of_exec hx) hend
  rcases htrue.1.mp hst with ⟨d, hd, haim, -⟩ | ⟨l, hl, hfiles, -⟩
  · rw [(hdeed d hd).1] at haim
    cases haim
  · rw [hlist] at hl
    obtain rfl := Option.some.inj hl
    have hsent := hfiles 0 (.abs ["a", "f"]) [] rfl
    rw [hop, hdst] at hsent
    rcases hsent with ⟨hno, -⟩ | ⟨-, d, hd, -, s, l, bs, -, -, hs, -⟩ | ⟨hno, -⟩
    · cases hno
    · rw [target_path_eq, Path.down_nil, (hdeed d hd).2] at hs
      cases hs
    · cases hno

end WebDavs.Mover
