/-
`copy_file`, call by call.

In `Job` a copy is one call. Here it is what the source has: the source is opened,
the destination created or emptied, and then the bytes go over in pieces, each read
and then written, in as many calls as the environment makes of it, while the other
workers are at their files. The calls of all workers interleave.

`File::create` empties the file that its path leads to, whatever that is. Where the
target of a file leads to a listed source, or to where another file has gone or is to
go, its bytes are lost (`copy_empties_source`). `copy_reproduces` says that nothing
else goes wrong.

A copy job renames and removes nothing, so that an open file is the place at which
it was opened.
-/
import WebDavs.Pool
import WebDavs.MoveSafe

set_option autoImplicit false

namespace WebDavs.Mover.Chunks

open WebDavs.Posix WebDavs.Posix.FileTree WebDavs.Steps

/-! ## The calls of one copy -/

/-- How far `copy_file` is with a file: not begun, the source open, or both ends
open, with `off` bytes written and `buf` read and not written yet. -/
inductive Copy where
  | closed
  | opened (r : Loc)
  | copying (r d : Loc) (n : String) (off : Nat) (buf : Bytes)
deriving DecidableEq

/-- The calls of `copy_file`. A read returns at most `n + 1` bytes, a write takes at
most `n + 1`. -/
inductive Call where
  | open_src
  | create_dst
  | read (n : Nat)
  | write (n : Nat)
deriving DecidableEq

/-- What a call leads to: the next one, or the end of the copy. -/
inductive Progress where
  | goes_on (c : Copy)
  | ended (res : Except Errno Nat)

/-- `vec![0u8; 1024 * 1024]`. -/
def buf_len : Nat := 1024 * 1024

/-- A write to the open file `d/n` at `off`. -/
def store (t : FileTree Bytes) (d : Loc) (n : String) (off : Nat) (bs : Bytes) : FileTree Bytes :=
  match h : t.get (d ++ [n]) with
  | some (.file c) => t.put d n (.file (splice c off bs)) (t.get_parent h) (by simp [h])
  | _ => t

/-- One call of `copy_file src dst`. It fails when the environment says so, or by
itself. A read of no bytes is the end of the file. -/
def call (k : Kernel) (t : FileTree Bytes) (src dst : Path) (err : Option Errno) :
    Copy → Call → Option (FileTree Bytes × Progress)
  | .closed, .open_src =>
    match err, k.stat t src with
    | some e, _ => some (t, .ended (.error e))
    | none, none => some (t, .ended (.error (k.why t src)))
    | none, some r => some (t, .goes_on (.opened r))
  | .opened r, .create_dst =>
    match err, k.place t dst with
    | some e, _ => some (t, .ended (.error e))
    | none, none => some (t, .ended (.error (k.unnamed t dst .eisdir)))
    | none, some (d, n) =>
      if h : t.get d = some .dir ∧ t.get (d ++ [n]) ≠ some .dir then
        some (t.put d n (.file []) (dir_of_room h) (not_dir_of_room h),
          .goes_on (.copying r d n 0 []))
      else some (t, .ended (.error .eisdir))
  | .copying r d n off [], .read m =>
    match t.get r, err with
    | some (.file c), none =>
      let got := (c.drop off).take (min (m + 1) buf_len)
      if got = [] then some (t, .ended (.ok off))
      else some (t, .goes_on (.copying r d n off got))
    | some (.file _), some e => some (t, .ended (.error e))
    | _, _ => some (t, .ended (.error .eisdir))
  | .copying r d n off (b :: bs), .write m =>
    match err with
    | some e => some (t, .ended (.error e))
    | none =>
      let now := (b :: bs).take (m + 1)
      some (store t d n off now,
        .goes_on (.copying r d n (off + now.length) ((b :: bs).drop (m + 1))))
  | _, _ => none

/-- The error of a call: no file is made by a path with something behind its last name. -/
def errno_at (k : Kernel) (t : FileTree Bytes) (dst : Path) (b : Path.Tail) :
    Call → Option Errno → Option Errno
  | .create_dst, none =>
    match b with
    | .none => none
    | .slash => if k.place t dst = none then none else some .eisdir
    | .dot => some (dot_errno k t dst .eisdir)
  | _, err => err

/-! ## The job with its copies -/

/-- A job, and how far the copy of each file is, by the file's number. -/
structure State where
  tree : FileTree Bytes
  runner : Runner
  copies : Nat → Copy

/-- One call: one of the job's, or one of the copy that worker `w` is at, which
fails with `err` if the environment says so. -/
inductive Event where
  | job (ev : Mover.Event)
  | call (w : Nat) (c : Call) (err : Option Errno)

namespace State

/-- The job a handler spawns. -/
def start (t : FileTree Bytes) (r : Runner) : State where
  tree := t
  runner := r
  copies _ := .closed

/-- The files of the list, while the workers are at them. -/
def files (s : State) : List (Path × List String) :=
  match s.runner.phase with
  | .working l _ _ _ => l.files
  | _ => []

/-- The file that the worker `w` is copying. -/
def copied (s : State) (w : Nat) : Option (Task × Path × List String) :=
  match s.runner.phase with
  | .working l ws _ _ =>
    match ws[w]? with
    | some (.copy task) => (l.files[task.idx]?).map fun f => (task, f)
    | _ => none
  | _ => none

/-- Whether `ev` would make one call of a copy. -/
def is_copy (s : State) : Mover.Event → Bool
  | .worker w _ => (s.copied w).isSome
  | _ => false

/-- The worker `i` goes on to `w`. -/
def send (r : Runner) (i : Nat) (w : Worker) : Runner :=
  match r.phase with
  | .working l ws next failed => { r with phase := .working l (ws.set i w) next failed }
  | _ => r

/-- The worker `w` has made a call for `task`. -/
def after (s : State) (w : Nat) (task : Task) (t : FileTree Bytes) : Progress → State
  | .goes_on c =>
    { s with tree := t, copies := fun i => if i = task.idx then c else s.copies i }
  | .ended (.ok _) => { s with tree := t, runner := send s.runner w (.report task true) }
  | .ended (.error e) => { s with tree := t, runner := send s.runner w (.fail task (some e)) }

/-- A call has failed: the walk, or one of a copy. -/
def failing (s : State) : Bool :=
  match s.runner.phase with
  | .working _ ws _ _ => ws.any fun w =>
    match w with
    | .fail _ _ => true
    | _ => false
  | _ => s.runner.job.status = .error

end State

/-- One event of a copy job. -/
def step (k : Kernel) (s : State) : Event → Option State
  | .job ev =>
    if s.is_copy ev then none
    else (Runner.step k s.tree s.runner ev).map fun x => ⟨x.1, x.2, s.copies⟩
  | .call w c err =>
    match s.copied w with
    | none => none
    | some (task, sf, rel) =>
      let df := target_path s.runner.dst rel
      (call k s.tree sf df (errno_at k s.tree df (s.runner.target_tail rel) c err)
        (s.copies task.idx) c).map fun x => s.after w task x.1 x.2

/-- The call does not fail. -/
def Works (k : Kernel) (s : State) (e : Event) : Prop :=
  ∀ s', step k s e = some s' → s'.failing = false

/-- A destination that is created or emptied is not what a listed source leads to,
and not where the target of another file leads. -/
def SparesFiles (k : Kernel) (s : State) : Event → Prop
  | .call w .create_dst _ => ∀ task f d n, s.copied w = some (task, f) →
      k.place s.tree (target_path s.runner.dst f.2) = some (d, n) →
      ∀ g ∈ s.files, k.stat s.tree g.1 ≠ some (d ++ [n]) ∧
        (g ≠ f → k.stat s.tree (target_path s.runner.dst g.2) ≠ some (d ++ [n]))
  | _ => True

/-! ## What a call does -/

section Calls

variable {k : Kernel} {t u u' : FileTree Bytes} {src dst : Path} {err : Option Errno}

/-- What a call of a copy can come to. -/
inductive CallCase (k : Kernel) (t : FileTree Bytes) (src dst : Path) :
    Copy → Call → FileTree Bytes × Progress → Prop where
  | opened (r : Loc) (h : k.stat t src = some r) :
      CallCase k t src dst .closed .open_src (t, .goes_on (.opened r))
  | unopened (e : Errno) : CallCase k t src dst .closed .open_src (t, .ended (.error e))
  | created (r d : Loc) (n : String) (t' : FileTree Bytes) (hp : k.place t dst = some (d, n))
      (hd : t.get (d ++ [n]) ≠ some .dir)
      (hget : ∀ x, t'.get x = if x = d ++ [n] then some (.file []) else t.get x) :
      CallCase k t src dst (.opened r) .create_dst (t', .goes_on (.copying r d n 0 []))
  | uncreated (r : Loc) (e : Errno) :
      CallCase k t src dst (.opened r) .create_dst (t, .ended (.error e))
  | got (r d : Loc) (n : String) (off m : Nat) (c buf : Bytes) (h : t.get r = some (.file c))
      (hbuf : buf = (c.drop off).take (min (m + 1) buf_len)) :
      CallCase k t src dst (.copying r d n off []) (.read m) (t, .goes_on (.copying r d n off buf))
  | at_end (r d : Loc) (n : String) (off m : Nat) (c : Bytes) (h : t.get r = some (.file c))
      (hlen : c.length ≤ off) :
      CallCase k t src dst (.copying r d n off []) (.read m) (t, .ended (.ok off))
  | wrote (r d : Loc) (n : String) (off m : Nat) (buf : Bytes) :
      CallCase k t src dst (.copying r d n off buf) (.write m)
        (store t d n off (buf.take (m + 1)),
          .goes_on (.copying r d n (off + (buf.take (m + 1)).length) (buf.drop (m + 1))))
  | broken (r d : Loc) (n : String) (off : Nat) (buf : Bytes) (c : Call) (e : Errno)
      (h : (∃ bs, t.get r = some (.file bs)) ∨ buf ≠ [] ∨ e = .eisdir) :
      CallCase k t src dst (.copying r d n off buf) c (t, .ended (.error e))

theorem call_cases {c : Copy} {cl : Call} {x : FileTree Bytes × Progress}
    (h : call k t src dst err c cl = some x) : CallCase k t src dst c cl x := by
  unfold call at h
  split at h
  · split at h
    · cases h
      exact .unopened _
    · cases h
      exact .unopened _
    · rename_i r hr
      cases h
      exact .opened r hr
  · split at h
    · cases h
      exact .uncreated _ _
    · cases h
      exact .uncreated _ _
    · rename_i d n hp
      split at h
      · rename_i hc
        cases h
        exact .created _ d n _ hp hc.2 fun _ => rfl
      · cases h
        exact .uncreated _ _
  · rename_i r d n off m
    split at h
    · rename_i c hr
      dsimp only at h
      split at h
      · rename_i hnil
        cases h
        refine .at_end r d n off m c hr ?_
        have hlen := congrArg List.length hnil
        rw [List.length_take, List.length_drop, List.length_nil] at hlen
        unfold buf_len at hlen
        omega
      · cases h
        exact .got r d n off m c _ hr rfl
    · rename_i bs e hr
      cases h
      exact .broken r d n off [] _ e (.inl ⟨bs, hr⟩)
    · cases h
      exact .broken r d n off [] _ _ (.inr (.inr rfl))
  · rename_i r d n off b bs m
    split at h
    · rename_i e
      cases h
      exact .broken r d n off (b :: bs) _ e (.inr (.inl (by simp)))
    · cases h
      exact .wrote r d n off m (b :: bs)
  · cases h

theorem store_get {d : Loc} {n : String} {c : Bytes} (h : t.get (d ++ [n]) = some (.file c))
    (off : Nat) (bs : Bytes) (x : Loc) :
    (store t d n off bs).get x =
      if x = d ++ [n] then some (.file (splice c off bs)) else t.get x := by
  unfold store
  split
  · rename_i c' h'
    rw [h] at h'
    cases h'
    exact get_put ..
  · rename_i hno
    exact absurd h (hno c)

/-- A write behind what a file has is put behind it. -/
theorem splice_take {bs now : Bytes} {off : Nat} (hoff : off ≤ bs.length) (h : now <+: bs.drop off) :
    splice (bs.take off) off now = bs.take (off + now.length) := by
  have hlen : (bs.take off).length = off := by
    rw [List.length_take]
    omega
  have hsplice := splice_end (bs.take off) now
  rw [hlen] at hsplice
  rw [hsplice, List.take_add, List.prefix_iff_eq_take.mp h]
  simp

/-- What is left of the buffer is what comes next. -/
theorem drop_prefix {bs buf : Bytes} {off : Nat} (h : buf <+: bs.drop off) (m : Nat) :
    buf.drop m <+: bs.drop (off + (buf.take m).length) := by
  obtain ⟨rest, h⟩ := h
  refine ⟨rest, ?_⟩
  rw [← List.drop_drop, ← h]
  conv_rhs => rw [← List.take_append_drop m buf, List.append_assoc]
  rw [List.take_append_drop, List.drop_left]

end Calls

/-! ## A copy that nothing comes between

Without another worker's calls in between, the calls add up to what `Job` takes for
one call. -/

/-- The calls of one copy in a row, from the tree `t` on. -/
inductive Alone (k : Kernel) (src dst : Path) (t : FileTree Bytes) :
    FileTree Bytes → Progress → Prop where
  | start : Alone k src dst t t (.goes_on .closed)
  | next {u u' : FileTree Bytes} {c : Copy} {cl : Call} {err : Option Errno} {p : Progress}
      (h : Alone k src dst t u (.goes_on c)) (hc : call k u src dst err c cl = some (u', p)) :
      Alone k src dst t u' p

/-- What is known while both ends are open: `bs` is what there is to copy. -/
structure Along (k : Kernel) (t : FileTree Bytes) (src dst : Path) (u : FileTree Bytes)
    (r d : Loc) (n : String) (off : Nat) (buf bs : Bytes) : Prop where
  source : k.stat t src = some r
  target : k.place t dst = some (d, n)
  free : t.get (d ++ [n]) ≠ some .dir
  get : ∀ x, u.get x = if x = d ++ [n] then some (.file (bs.take off)) else t.get x
  off_le : off ≤ bs.length
  buf_prefix : buf <+: bs.drop off
  file : ∀ c, t.get r = some (.file c) → bs = if r = d ++ [n] then [] else c
  other : (∀ c, t.get r ≠ some (.file c)) → bs = []

/-- What is known of a copy on its own. -/
def CopySoFar (k : Kernel) (t : FileTree Bytes) (src dst : Path) (u : FileTree Bytes) :
    Progress → Prop
  | .goes_on .closed => u = t
  | .goes_on (.opened r) => u = t ∧ k.stat t src = some r
  | .goes_on (.copying r d n off buf) => ∃ bs, Along k t src dst u r d n off buf bs
  | .ended res => ∃ f, (copy_file k t src dst f).2 = res ∧
      ∀ x, (copy_file k t src dst f).1.get x = u.get x

section OneCopy

variable {k : Kernel} {t u u' : FileTree Bytes} {src dst : Path} {r d : Loc} {n : String}
variable {off : Nat} {buf bs : Bytes}

/-- The open source holds what there is to copy, or is no file. -/
theorem Along.source_get (h : Along k t src dst u r d n off buf bs) :
    (∀ c, u.get r = some (.file c) → ∃ c', t.get r = some (.file c') ∧ c.drop off = bs.drop off ∧
        (c.length ≤ off → off = bs.length)) ∧
      ((∀ c, t.get r ≠ some (.file c)) → ∀ c, u.get r ≠ some (.file c)) := by
  obtain ⟨e, he, hsym⟩ := Kernel.stat_spec h.source
  by_cases hr : r = d ++ [n]
  · have hfile : ∃ c, t.get r = some (.file c) := by
      cases e with
      | dir => exact absurd (hr ▸ he) h.free
      | file c => exact ⟨c, he⟩
      | symlink tgt => exact absurd rfl (hsym tgt)
    obtain ⟨c', hc'⟩ := hfile
    have hbs : bs = [] := by rw [h.file c' hc', if_pos hr]
    refine ⟨fun c hc => ⟨c', hc', ?_, fun _ => ?_⟩, fun hno => absurd hc' (hno c')⟩
    · rw [h.get, if_pos hr, hbs] at hc
      cases hc
      rw [hbs]
      simp
    · have := h.off_le
      rw [hbs] at this ⊢
      exact Nat.le_zero.mp this
  · have hsame : u.get r = t.get r := by rw [h.get, if_neg hr]
    rw [hsame]
    refine ⟨fun c hc => ⟨c, hc, ?_⟩, id⟩
    have hbs : bs = c := by rw [h.file c hc, if_neg hr]
    rw [hbs]
    exact ⟨rfl, fun hle => Nat.le_antisymm (hbs ▸ h.off_le) hle⟩

/-! What `copy_file` comes to where both ends open. -/

theorem copy_file_other (hsrc : k.stat t src = some r) (hp : k.place t dst = some (d, n))
    (hfree : t.get (d ++ [n]) ≠ some .dir) (hno : ∀ c, t.get r ≠ some (.file c)) :
    (copy_file k t src dst .none).2 = .error .eisdir ∧ ∀ x,
      (copy_file k t src dst .none).1.get x
        = if x = d ++ [n] then some (.file []) else t.get x := by
  simp only [copy_file, hsrc, hp]
  rw [dif_pos ⟨(Kernel.place_spec hp).1, hfree⟩]
  exact ⟨rfl, fun _ => rfl⟩

theorem copy_file_part {c : Bytes} (hsrc : k.stat t src = some r) (hp : k.place t dst = some (d, n))
    (hfree : t.get (d ++ [n]) ≠ some .dir) (hc : t.get r = some (.file c)) (e : Errno) (m : Nat) :
    (copy_file k t src dst (.part e m)).2 = .error e ∧ ∀ x,
      (copy_file k t src dst (.part e m)).1.get x = if x = d ++ [n] then
        some (.file ((if r = d ++ [n] then [] else c).take m)) else t.get x := by
  simp only [copy_file, hsrc, hp, hc]
  rw [dif_pos ⟨(Kernel.place_spec hp).1, hfree⟩]
  exact ⟨rfl, fun _ => rfl⟩

theorem copy_file_whole {c : Bytes} (hsrc : k.stat t src = some r) (hp : k.place t dst = some (d, n))
    (hfree : t.get (d ++ [n]) ≠ some .dir) (hc : t.get r = some (.file c)) :
    (copy_file k t src dst .none).2 = .ok (if r = d ++ [n] then [] else c).length ∧ ∀ x,
      (copy_file k t src dst .none).1.get x = if x = d ++ [n] then
        some (.file (if r = d ++ [n] then [] else c)) else t.get x := by
  simp only [copy_file, hsrc, hp, hc]
  rw [dif_pos ⟨(Kernel.place_spec hp).1, hfree⟩]
  exact ⟨rfl, fun _ => rfl⟩

/-- What a call of a copy on its own keeps. -/
theorem CopySoFar.next {c : Copy} {cl : Call} {err : Option Errno} {p : Progress}
    (h : CopySoFar k t src dst u (.goes_on c)) (hc : call k u src dst err c cl = some (u', p)) :
    CopySoFar k t src dst u' p := by
  cases call_cases hc with
  | opened r hr =>
      have hu : u = t := h
      subst hu
      exact ⟨rfl, hr⟩
  | unopened e =>
      have hu : u = t := h
      exact ⟨.error e, rfl, fun x => by rw [hu]; rfl⟩
  | created r d n _ hp hd hget =>
      obtain ⟨rfl, hr⟩ := h
      -- a file that is copied onto itself is empty by now
      by_cases hfile : ∃ c, u.get r = some (.file c)
      · obtain ⟨c, hc⟩ := hfile
        refine ⟨if r = d ++ [n] then [] else c, hr, hp, hd, fun x => ?_, Nat.zero_le _,
          List.nil_prefix, fun c' hc' => ?_, fun hno => absurd hc (hno c)⟩
        · rw [hget, List.take_zero]
        · rw [hc] at hc'
          cases hc'
          rfl
      · exact ⟨[], hr, hp, hd, hget, Nat.le_refl _, List.prefix_rfl,
          fun c hc => absurd ⟨c, hc⟩ hfile, fun _ => rfl⟩
  | uncreated r e =>
      obtain ⟨rfl, -⟩ := h
      exact ⟨.error e, rfl, fun _ => rfl⟩
  | got r d n off m c buf hr hbuf =>
      obtain ⟨bs, ha⟩ := h
      obtain ⟨-, -, hdrop, -⟩ := ha.source_get.1 c hr
      refine ⟨bs, { ha with buf_prefix := ?_ }⟩
      rw [hbuf, hdrop]
      exact List.take_prefix _ _
  | at_end r d n off m c hr hlen =>
      obtain ⟨bs, ha⟩ := h
      obtain ⟨c', hc', -, hend⟩ := ha.source_get.1 c hr
      obtain ⟨hres, hget⟩ := copy_file_whole ha.source ha.target ha.free hc'
      rw [← ha.file c' hc'] at hres hget
      refine ⟨.none, by rw [hres, hend hlen], fun x => ?_⟩
      rw [hget, ha.get, hend hlen, List.take_length]
  | wrote r d n off m buf =>
      obtain ⟨bs, ha⟩ := h
      have hnow : buf.take (m + 1) <+: bs.drop off := (List.take_prefix _ _).trans ha.buf_prefix
      have hfile : u.get (d ++ [n]) = some (.file (bs.take off)) := by rw [ha.get, if_pos rfl]
      refine ⟨bs, { ha with
        get := fun x => ?_, off_le := ?_, buf_prefix := drop_prefix ha.buf_prefix (m + 1) }⟩
      · rw [store_get hfile, splice_take ha.off_le hnow, ha.get]
        split <;> rfl
      · have := hnow.length_le
        have := ha.off_le
        rw [List.length_drop] at *
        omega
  | broken r d n off buf _ e hwhy =>
      obtain ⟨bs, ha⟩ := h
      by_cases hfile : ∃ c, t.get r = some (.file c)
      · obtain ⟨c, hc⟩ := hfile
        obtain ⟨hres, hget⟩ := copy_file_part ha.source ha.target ha.free hc e off
        refine ⟨.part e off, hres, fun x => ?_⟩
        rw [hget, ← ha.file c hc, ha.get]
      · have hno : ∀ c, t.get r ≠ some (.file c) := fun c hc => hfile ⟨c, hc⟩
        have hbs := ha.other hno
        have he : e = .eisdir := by
          rcases hwhy with ⟨c, hc⟩ | hbuf | he
          · exact absurd hc (ha.source_get.2 hno c)
          · have hnil := ha.buf_prefix
            rw [hbs, List.drop_nil, List.prefix_nil] at hnil
            exact absurd hnil hbuf
          · exact he
        obtain ⟨hres, hget⟩ := copy_file_other ha.source ha.target ha.free hno
        refine ⟨.none, by rw [hres, he], fun x => ?_⟩
        rw [hget, ha.get, hbs, List.take_nil]

/-- **A copy on its own** comes to what `copy_file` comes to as one call. -/
theorem alone_is_copy_file {res : Except Errno Nat}
    (h : Alone k src dst t u (.ended res)) :
    ∃ f, (copy_file k t src dst f).2 = res ∧ ∀ x, (copy_file k t src dst f).1.get x = u.get x := by
  have hsound : ∀ {v : FileTree Bytes} {p : Progress}, Alone k src dst t v p →
      CopySoFar k t src dst v p := by
    intro v p ha
    induction ha with
    | start => exact rfl
    | next _ hc ih => exact ih.next hc
  exact hsound h

end OneCopy

/-! ## What is known of the files

A copy job adds to the tree and fills files, so that what a path leads to it leads
to for good (`Builds`). A file is begun once its destination is open; no two files
that are begun have one destination. -/

/-- The listed files hold what they held. -/
structure SourcesKept (k : Kernel) (t : FileTree Bytes) (l : Listing) (u : FileTree Bytes) :
    Prop where
  builds : Builds t u
  source : ∀ f ∈ l.files, ∀ bs, k.read t f.1 = some bs → k.read u f.1 = some bs

/-- The targets of the files begun lead to files of their own. -/
def Apart (k : Kernel) (dst : Path) (u : FileTree Bytes) (S : Path × List String → Prop) : Prop :=
  ∀ f, S f → ∃ y, k.stat u (dst.down f.2) = some y ∧
    ∀ g, S g → g ≠ f → k.stat u (dst.down g.2) ≠ some y

/-- A file both ends of which are open. -/
structure Copying (k : Kernel) (t : FileTree Bytes) (dst : Path) (l : Listing)
    (u : FileTree Bytes) (S : Path × List String → Prop) (f : Path × List String)
    (r d : Loc) (n : String) (off : Nat) (buf : Bytes) : Prop where
  begun : S f
  target : k.stat u (dst.down f.2) = some (d ++ [n])
  source : ∀ x, k.stat t f.1 = some x → r = x
  spares_files : ∀ g ∈ l.files, ∀ x, k.stat t g.1 = some x → x ≠ d ++ [n]
  written : ∀ bs, k.read t f.1 = some bs →
    u.get (d ++ [n]) = some (.file (bs.take off)) ∧ off ≤ bs.length ∧ buf <+: bs.drop off

/-- What is known of a file by how far its copy is. -/
def Held (k : Kernel) (t : FileTree Bytes) (dst : Path) (l : Listing) (u : FileTree Bytes)
    (S : Path × List String → Prop) (f : Path × List String) : Copy → Prop
  | .closed => True
  | .opened r => ∀ x, k.stat t f.1 = some x → r = x
  | .copying r d n off buf => Copying k t dst l u S f r d n off buf

/-- The file has gone over. -/
def Settled (k : Kernel) (t : FileTree Bytes) (dst : Path) (u : FileTree Bytes)
    (S : Path × List String → Prop) (f : Path × List String) : Prop :=
  S f ∧ ∀ bs, k.read t f.1 = some bs → k.read u (dst.down f.2) = some bs

/-- What is known of a file by what its worker does. No worker of a copy job renames
or removes, and none fails. -/
def Busy (k : Kernel) (t : FileTree Bytes) (dst : Path) (l : Listing) (u : FileTree Bytes)
    (S : Path × List String → Prop) (f : Path × List String) (c : Copy) : Worker → Prop
  | .idle => True
  | .stopped => True
  | .measure _ => c = .closed
  | .announce _ => c = .closed
  | .copy _ => Held k t dst l u S f c
  | .report _ true => Settled k t dst u S f
  | _ => False

/-- The terms of the workers. -/
def terms (k : Kernel) (t : FileTree Bytes) (dst : Path) (l : Listing) (u : FileTree Bytes)
    (S : Path × List String → Prop) (copies : Nat → Copy) :
    Pool.Terms Worker (Path × List String) where
  waiting _ := True
  held w f := ∀ n, w.idx = some n → l.files[n]? = some f → Busy k t dst l u S f (copies n) w
  settled f := Settled k t dst u S f
  always _ := True

/-- What is known while the workers are at the files. -/
structure Working (k : Kernel) (t : FileTree Bytes) (dst : Path) (l : Listing)
    (u : FileTree Bytes) (copies : Nat → Copy) (ws : List Worker) (next failed : Nat) : Prop where
  kept : SourcesKept k t l u
  well : failed = 0
  fresh : ∀ n, next ≤ n → copies n = .closed
  books : ∃ S, (∀ f, S f → f ∈ l.files) ∧ Apart k dst u S ∧
    Pool.Books Worker.idx .stopped (terms k t dst l u S copies) l.files ws next failed

section Files

variable {k : Kernel} {t u u' : FileTree Bytes} {dst : Path} {l : Listing}
variable {S S' : Path × List String → Prop} {f g : Path × List String} {d : Loc} {n : String}

theorem read_of_stat {p : Path} {x : Loc} {bs : Bytes} (h : k.read u p = some bs)
    (hst : k.stat u p = some x) : u.get x = some (.file bs) := by
  obtain ⟨y, hy, hfile⟩ := Kernel.read_eq_some.mp h
  rw [hst] at hy
  cases hy
  exact hfile

theorem SourcesKept.grows (h : SourcesKept k t l u) (hg : Grows u u') : SourcesKept k t l u' := by
  refine ⟨h.builds.trans hg.builds, fun f hf bs hbs => ?_⟩
  obtain ⟨x, hx, hfile⟩ := Kernel.read_eq_some.mp (h.source f hf bs hbs)
  exact Kernel.read_eq_some.mpr ⟨x, Kernel.stat_builds hg.builds hx, hg.extends _ _ hfile⟩

/-- A file is written that no listed source leads to. -/
theorem SourcesKept.leaf (h : SourcesKept k t l u) (hb : Builds u u')
    (hrest : ∀ x, x ≠ d ++ [n] → u'.get x = u.get x)
    (haside : ∀ g ∈ l.files, ∀ x, k.stat t g.1 = some x → x ≠ d ++ [n]) : SourcesKept k t l u' := by
  refine ⟨h.builds.trans hb, fun g hg bs hbs => ?_⟩
  obtain ⟨x, hx, -⟩ := Kernel.read_eq_some.mp hbs
  have hxu := Kernel.stat_builds h.builds hx
  refine Kernel.read_eq_some.mpr ⟨x, Kernel.stat_builds hb hxu, ?_⟩
  rw [hrest x (haside g hg x hx)]
  exact read_of_stat (h.source g hg bs hbs) hxu

theorem Apart.builds (h : Apart k dst u S) (hb : Builds u u') : Apart k dst u' S := by
  intro f hf
  obtain ⟨y, hy, hother⟩ := h f hf
  refine ⟨y, Kernel.stat_builds hb hy, fun g hg hgf he => ?_⟩
  obtain ⟨z, hz, -⟩ := h g hg
  have hz' := Kernel.stat_builds hb hz
  rw [he] at hz'
  cases hz'
  exact hother g hg hgf hz

/-- One more file is begun. -/
theorem Apart.begun (h : Apart k dst u S) (hb : Builds u u') {y : Loc}
    (hy : k.stat u' (dst.down f.2) = some y)
    (hother : ∀ g, S g → g ≠ f → k.stat u (dst.down g.2) ≠ some y) :
    Apart k dst u' fun g => S g ∨ g = f := by
  -- of the other files it is known already where they are
  have hold : ∀ g, S g → g ≠ f → k.stat u' (dst.down g.2) ≠ some y := by
    intro g hg hgf he
    obtain ⟨z, hz, -⟩ := h g hg
    have hz' := Kernel.stat_builds hb hz
    rw [he] at hz'
    cases hz'
    exact hother g hg hgf hz
  intro a ha
  by_cases haf : a = f
  · subst haf
    exact ⟨y, hy, fun g hg hga => hold g (hg.resolve_right hga) hga⟩
  · have haS := ha.resolve_right haf
    obtain ⟨z, hz, hsep⟩ := h.builds hb a haS
    refine ⟨z, hz, fun g hg hga he => ?_⟩
    by_cases hgf : g = f
    · subst hgf
      rw [hy] at he
      cases he
      exact hold a haS haf hz
    · exact hsep g (hg.resolve_right hgf) hga he

/-- What another file's call leaves alone of `g`. -/
structure Leaves (k : Kernel) (dst : Path) (u u' : FileTree Bytes)
    (S S' : Path × List String → Prop) (g : Path × List String) : Prop where
  builds : Builds u u'
  sub : S g → S' g
  same : S g → ∀ y, k.stat u (dst.down g.2) = some y → u'.get y = u.get y

theorem Leaves.refl (k : Kernel) (dst : Path) (u : FileTree Bytes)
    (S : Path × List String → Prop) (g : Path × List String) : Leaves k dst u u S S g :=
  ⟨Builds.refl u, id, fun _ _ _ => rfl⟩

theorem Settled.keep (h : Settled k t dst u S g) (hl : Leaves k dst u u' S S' g) :
    Settled k t dst u' S' g := by
  refine ⟨hl.sub h.1, fun bs hbs => ?_⟩
  obtain ⟨y, hy, hfile⟩ := Kernel.read_eq_some.mp (h.2 bs hbs)
  exact Kernel.read_eq_some.mpr
    ⟨y, Kernel.stat_builds hl.builds hy, by rw [hl.same h.1 y hy, hfile]⟩

theorem Held.keep {c : Copy} (h : Held k t dst l u S g c) (hl : Leaves k dst u u' S S' g) :
    Held k t dst l u' S' g c := by
  cases c with
  | closed => trivial
  | opened r => exact h
  | copying r d n off buf =>
      have hc : Copying k t dst l u S g r d n off buf := h
      refine ⟨hl.sub hc.begun, Kernel.stat_builds hl.builds hc.target, hc.source, hc.spares_files,
        fun bs hbs => ?_⟩
      obtain ⟨hfile, hoff, hbuf⟩ := hc.written bs hbs
      exact ⟨by rw [hl.same hc.begun _ hc.target, hfile], hoff, hbuf⟩

theorem Busy.keep {c : Copy} {w : Worker} (h : Busy k t dst l u S g c w)
    (hl : Leaves k dst u u' S S' g) : Busy k t dst l u' S' g c w := by
  cases w with
  | idle => trivial
  | stopped => trivial
  | measure i => exact h
  | announce x => exact h
  | copy x => exact Held.keep h hl
  | report x ok =>
      cases ok with
      | true => exact Settled.keep h hl
      | false => exact h.elim
  | rename x => exact h.elim
  | remove x => exact h.elim
  | fail x e => exact h.elim
  | note x e => exact h.elim

/-- What is known of the file after a call of its copy. -/
def Met (k : Kernel) (t : FileTree Bytes) (dst : Path) (l : Listing) (u : FileTree Bytes)
    (S : Path × List String → Prop) (f : Path × List String) : Progress → Prop
  | .goes_on c => Held k t dst l u S f c
  | .ended (.ok _) => Settled k t dst u S f
  | .ended (.error _) => False

/-- What a call for `f` keeps of the other files. -/
structure Moves (k : Kernel) (t : FileTree Bytes) (dst : Path) (l : Listing)
    (u u' : FileTree Bytes) (S S' : Path × List String → Prop) (f : Path × List String) : Prop where
  kept : SourcesKept k t l u'
  listed : ∀ g, S' g → g ∈ l.files
  apart : Apart k dst u' S'
  others : ∀ g, g ≠ f → Leaves k dst u u' S S' g

/-- The open source of a listed file is the file. -/
theorem source_get (hk : SourcesKept k t l u) (hf : f ∈ l.files) {r : Loc}
    (hr : ∀ x, k.stat t f.1 = some x → r = x) {bs : Bytes} (hbs : k.read t f.1 = some bs) :
    u.get r = some (.file bs) := by
  obtain ⟨x, hx, -⟩ := Kernel.read_eq_some.mp hbs
  rw [hr x hx]
  exact read_of_stat (hk.source f hf bs hbs) (Kernel.stat_builds hk.builds hx)

/-- A call of a copy fails, or keeps what is known; a destination that it opens has
to be spares_files. -/
theorem Held.call {c : Copy} {cl : Call} {p : Progress} (hf : f ∈ l.files) (hk : SourcesKept k t l u)
    (hin : ∀ g, S g → g ∈ l.files) (ha : Apart k dst u S) (hh : Held k t dst l u S f c)
    (hcase : CallCase k u f.1 (dst.down f.2) c cl (u', p))
    (haside : cl = .create_dst → ∀ d n, k.place u (dst.down f.2) = some (d, n) →
      ∀ g ∈ l.files, k.stat u g.1 ≠ some (d ++ [n]) ∧
        (g ≠ f → k.stat u (dst.down g.2) ≠ some (d ++ [n]))) :
    (∃ e, p = .ended (.error e)) ∨ ∃ S', Moves k t dst l u u' S S' f ∧ Met k t dst l u' S' f p := by
  have hstill : ∀ g, g ≠ f → Leaves k dst u u S S g := fun g _ => Leaves.refl k dst u S g
  generalize hx : (u', p) = x at hcase
  cases hcase with
  | unopened e =>
      cases hx
      exact .inl ⟨e, rfl⟩
  | uncreated r e =>
      cases hx
      exact .inl ⟨e, rfl⟩
  | broken r d n off buf _ e =>
      cases hx
      exact .inl ⟨e, rfl⟩
  | opened r hr =>
      cases hx
      refine .inr ⟨S, ⟨hk, hin, ha, hstill⟩, fun x hx => ?_⟩
      have hxu := Kernel.stat_builds hk.builds hx
      rw [hr] at hxu
      exact Option.some.inj hxu
  | created r d n _ hp hd hget =>
      cases hx
      -- the file that is made is no source, and no other file's destination
      have hclear := haside rfl d n hp
      have hnew : u'.get (d ++ [n]) = some (.file []) := by rw [hget, if_pos rfl]
      have hrest : ∀ x, x ≠ d ++ [n] → u'.get x = u.get x := fun x hx => by rw [hget, if_neg hx]
      have hb : Builds u u' := builds_of_leaf hd (Kernel.place_spec hp).2.1 hnew hrest
      have hst : k.stat u' (dst.down f.2) = some (d ++ [n]) := Kernel.stat_of_place hnew hd hrest hp
      have hoff : ∀ g ∈ l.files, ∀ x, k.stat t g.1 = some x → x ≠ d ++ [n] := by
        rintro g hg x hx rfl
        exact (hclear g hg).1 (Kernel.stat_builds hk.builds hx)
      refine .inr ⟨fun g => S g ∨ g = f, ⟨hk.leaf hb hrest hoff, ?_, ?_, ?_⟩, ?_⟩
      · rintro g (hg | rfl)
        · exact hin g hg
        · exact hf
      · exact ha.begun hb hst fun g hg hgf => (hclear g (hin g hg)).2 hgf
      · refine fun g hgf => ⟨hb, .inl, fun hg y hy => hrest y ?_⟩
        rintro rfl
        exact (hclear g (hin g hg)).2 hgf hy
      · refine ⟨.inr rfl, hst, hh, hoff, fun bs _ => ⟨?_, Nat.zero_le _, List.nil_prefix⟩⟩
        rw [hnew, List.take_zero]
  | got r d n off m c buf hr hbuf =>
      cases hx
      have hc : Copying k t dst l u S f r d n off [] := hh
      refine .inr ⟨S, ⟨hk, hin, ha, hstill⟩, ?_⟩
      refine ⟨hc.begun, hc.target, hc.source, hc.spares_files, fun bs hbs => ?_⟩
      obtain ⟨hfile, hoff, -⟩ := hc.written bs hbs
      -- the source is what it was in the first tree, so what is read is its next part
      have hsrc := source_get hk hf hc.source hbs
      rw [hr] at hsrc
      cases hsrc
      exact ⟨hfile, hoff, hbuf ▸ List.take_prefix _ _⟩
  | at_end r d n off m c hr hlen =>
      cases hx
      have hc : Copying k t dst l u S f r d n off [] := hh
      refine .inr ⟨S, ⟨hk, hin, ha, hstill⟩, hc.begun, fun bs hbs => ?_⟩
      obtain ⟨hfile, -, -⟩ := hc.written bs hbs
      have hsrc := source_get hk hf hc.source hbs
      rw [hr] at hsrc
      cases hsrc
      rw [List.take_of_length_le hlen] at hfile
      exact Kernel.read_eq_some.mpr ⟨_, hc.target, hfile⟩
  | wrote r d n off m buf =>
      cases hx
      have hc : Copying k t dst l u S f r d n off buf := hh
      by_cases hfile : ∃ c, u.get (d ++ [n]) = some (.file c)
      -- what was written so far and what is written now make a longer prefix
      · obtain ⟨c, hfile⟩ := hfile
        have hget := store_get hfile off (buf.take (m + 1))
        generalize store u d n off (buf.take (m + 1)) = u' at hget
        have hrest : ∀ x, x ≠ d ++ [n] → u'.get x = u.get x := fun x hx => by rw [hget, if_neg hx]
        have hb : Builds u u' := builds_of_leaf (by rw [hfile]; simp) (linkAt_of_file hfile)
          (by rw [hget, if_pos rfl]) hrest
        refine .inr ⟨S, ⟨hk.leaf hb hrest hc.spares_files, hin, ha.builds hb, ?_⟩, ?_⟩
        · refine fun g hgf => ⟨hb, id, fun hg y hy => hrest y ?_⟩
          rintro rfl
          obtain ⟨y, hy', hsep⟩ := ha f hc.begun
          rw [hc.target] at hy'
          cases hy'
          exact hsep g hg hgf hy
        · refine ⟨hc.begun, Kernel.stat_builds hb hc.target, hc.source, hc.spares_files,
            fun bs hbs => ?_⟩
          obtain ⟨hold, hoff, hbuf⟩ := hc.written bs hbs
          have hnow := (List.take_prefix (m + 1) buf).trans hbuf
          rw [hfile] at hold
          cases hold
          refine ⟨?_, ?_, drop_prefix hbuf (m + 1)⟩
          · rw [hget, if_pos rfl, splice_take hoff hnow]
          · have := hnow.length_le
            rw [List.length_drop] at this
            omega
      · -- what was there at the start is being written to a file
        have hsame : store u d n off (buf.take (m + 1)) = u := by
          unfold store
          split
          · rename_i c hc'
            exact absurd ⟨c, hc'⟩ hfile
          · rfl
        rw [hsame]
        refine .inr ⟨S, ⟨hk, hin, ha, hstill⟩, hc.begun, hc.target, hc.source, hc.spares_files, ?_⟩
        intro bs hbs
        exact absurd ⟨_, (hc.written bs hbs).1⟩ hfile

end Files

/-! ## Workers -/

section Workers

variable {k : Kernel} {t u u' : FileTree Bytes} {dst : Path} {l : Listing}
variable {copies copies' : Nat → Copy} {ws : List Worker} {next failed i m : Nat}
variable {w w' : Worker} {f : Path × List String}

theorem set_same {α : Type} {xs : List α} {x : α} (h : xs[i]? = some x) : xs.set i x = xs := by
  obtain ⟨hlt, rfl⟩ := List.getElem?_eq_some_iff.mp h
  exact List.set_getElem_self hlt

/-- A worker goes on with its file. -/
theorem Working.move (h : Working k t dst l u copies ws next failed) (hn : l.files.Nodup)
    (hw : ws[i]? = some w) (hm : w.idx = some m) (hf : l.files[m]? = some f)
    (hm' : w'.idx = some m) (hcopies : ∀ n, n ≠ m → copies' n = copies n)
    (hmove : ∀ S, (∀ g, S g → g ∈ l.files) → Apart k dst u S →
      Busy k t dst l u S f (copies m) w →
      ∃ S', Moves k t dst l u u' S S' f ∧ Busy k t dst l u' S' f (copies' m) w') :
    Working k t dst l u' copies' (ws.set i w') next failed := by
  obtain ⟨S, hin, ha, hB⟩ := h.books
  obtain ⟨hlt, f', hf', hheld⟩ := hB.held i w m hw hm
  rw [hf] at hf'
  cases hf'
  obtain ⟨S', hmv, hown⟩ := hmove S hin ha (hheld m hm hf)
  refine ⟨hmv.kept, h.well, fun n hle => ?_, S', hmv.listed, hmv.apart, ?_⟩
  · rw [hcopies n (by omega)]
    exact h.fresh n hle
  · refine hB.hold hw hm hf hm' rfl (Nat.le_refl _) ?_ trivial fun j g hj hg => ?_
    · intro n hn' _
      rw [hm'] at hn'
      cases hn'
      exact hown
    · have hgf : g ≠ f := by
        rintro rfl
        exact hj (idx_unique hn hg hf)
      have hl := hmv.others g hgf
      refine ⟨id, fun v hv n hvn hgn => ?_, fun hs => hs.keep hl, id⟩
      have hnm : n ≠ m := by
        rintro rfl
        rw [hf] at hgn
        exact hgf (Option.some.inj hgn).symm
      rw [hcopies n hnm]
      exact (hv n hvn hgn).keep hl

/-- The tree stays as it is. -/
theorem Working.stay (h : Working k t dst l u copies ws next failed) (hn : l.files.Nodup)
    (hw : ws[i]? = some w) (hm : w.idx = some m) (hf : l.files[m]? = some f)
    (hm' : w'.idx = some m)
    (hbusy : ∀ S, Busy k t dst l u S f (copies m) w → Busy k t dst l u S f (copies m) w') :
    Working k t dst l u copies (ws.set i w') next failed := by
  refine h.move hn hw hm hf hm' (fun _ _ => rfl) fun S hin ha hb => ?_
  exact ⟨S, ⟨h.kept, hin, ha, fun g _ => Leaves.refl k dst u S g⟩, hbusy S hb⟩

/-- A call of the copy that a worker is at keeps what is known, unless it fails. -/
theorem Working.call (h : Working k t dst l u copies ws next failed) (hn : l.files.Nodup)
    {task : Task} {c : Call} {err : Option Errno} {p : Progress}
    (hw : ws[i]? = some (.copy task)) (hf : l.files[task.idx]? = some f)
    (hc : call k u f.1 (dst.down f.2) err (copies task.idx) c = some (u', p))
    (haside : c = .create_dst → ∀ d n, k.place u (dst.down f.2) = some (d, n) →
      ∀ g ∈ l.files, k.stat u g.1 ≠ some (d ++ [n]) ∧
        (g ≠ f → k.stat u (dst.down g.2) ≠ some (d ++ [n]))) :
    match p with
    | .goes_on x => Working k t dst l u' (fun n => if n = task.idx then x else copies n) ws next
      failed
    | .ended (.ok _) => Working k t dst l u' copies (ws.set i (.report task true)) next failed
    | .ended (.error _) => True := by
  have hmem := List.mem_of_getElem? hf
  have hcall : ∀ S, (∀ g, S g → g ∈ l.files) → Apart k dst u S →
      Busy k t dst l u S f (copies task.idx) (.copy task) → (∃ e, p = .ended (.error e)) ∨
        ∃ S', Moves k t dst l u u' S S' f ∧ Met k t dst l u' S' f p := fun S hin ha hb =>
    Held.call hmem h.kept hin ha hb (call_cases hc) haside
  cases p with
  | goes_on x =>
      dsimp only
      rw [← set_same hw]
      refine h.move hn hw rfl hf rfl (fun n hne => if_neg hne) fun S hin ha hb => ?_
      rcases hcall S hin ha hb with ⟨e, he⟩ | ⟨S', hmv, hmet⟩
      · cases he
      · exact ⟨S', hmv, by rw [if_pos rfl]; exact hmet⟩
  | ended res =>
      cases res with
      | error e => trivial
      | ok m =>
          refine h.move hn hw rfl hf rfl (fun _ _ => rfl) fun S hin ha hb => ?_
          rcases hcall S hin ha hb with ⟨e, he⟩ | ⟨S', hmv, hmet⟩
          · cases he
          · exact ⟨S', hmv, hmet⟩

/-- The other calls of a worker leave the tree alone. -/
theorem Working.work (h : Working k t dst l u copies ws next failed) (hn : l.files.Nodup)
    {r : Runner} (hop : r.op = .copy) {fault : Fault} {y : FileTree Bytes × Job × Nat × Nat × Worker}
    (hw : ws[i]? = some w) (hcopy : ∀ task, w ≠ .copy task)
    (hy : Runner.WorkCase k u r l next failed fault w y) :
    Working k t dst l y.1 copies (ws.set i y.2.2.2.2) y.2.2.1 y.2.2.2.1 := by
  obtain ⟨S, hin, ha, hB⟩ := h.books
  have hbusy : ∀ m, w.idx = some m → ∀ f, l.files[m]? = some f →
      Busy k t dst l u S f (copies m) w := by
    intro m hm f hf
    obtain ⟨-, f', hf', hheld⟩ := hB.held i w m hw hm
    rw [hf] at hf'
    cases hf'
    exact hheld m hm hf
  cases hy with
  | drained hnone =>
      refine ⟨h.kept, h.well, fun n hle => h.fresh n (Nat.le_of_succ_le hle), S, hin, ha, ?_⟩
      exact hB.drained hw rfl rfl hnone
  | taken g hg =>
      refine ⟨h.kept, h.well, fun n hle => h.fresh n (Nat.le_of_succ_le hle), S, hin, ha, ?_⟩
      -- a task handed out now has not been copied: its place is still fresh
      refine hB.taken hw rfl hg rfl rfl fun _ n hn' _ => ?_
      cases hn'
      exact h.fresh next (Nat.le_refl _)
  | measured idx sf rel hf => exact h.stay hn hw rfl hf rfl fun _ hb => hb
  | announced task sf rel hf =>
      -- a copy job goes from the announcement to the copy itself
      have hfirst : r.first task = .copy task := by
        unfold Runner.first
        rw [if_neg (by simp [hop])]
      rw [hfirst]
      refine h.stay hn hw rfl hf rfl fun S hb => ?_
      have hclosed : copies task.idx = .closed := hb
      rw [hclosed]
      trivial
  -- a worker that holds a task of a copy never renames or removes
  | renamed task sf rel _ hf => exact (hbusy task.idx rfl _ hf).elim
  | unrenamed task sf rel e hf => exact (hbusy task.idx rfl _ hf).elim
  | copied task => exact absurd rfl (hcopy task)
  | uncopied task => exact absurd rfl (hcopy task)
  | removed task sf rel _ hf => exact (hbusy task.idx rfl _ hf).elim
  | unremoved task sf rel e hf => exact (hbusy task.idx rfl _ hf).elim
  | failed task err =>
      obtain ⟨-, f, hf, hheld⟩ := hB.held i _ _ hw rfl
      exact (hheld task.idx rfl hf).elim
  | noted task err e =>
      obtain ⟨-, f, hf, hheld⟩ := hB.held i _ _ hw rfl
      exact (hheld task.idx rfl hf).elim
  | reported task ok =>
      refine ⟨h.kept, h.well, h.fresh, S, hin, ha, ?_⟩
      refine hB.reported hw rfl rfl (by simp) (Nat.le_refl _) fun f hf hheld => .inr ?_
      have hb := hheld task.idx rfl hf
      -- only a copy that is through is reported as done
      cases ok with
      | true => exact hb
      | false => exact hb.elim

end Workers

/-! ## Runs -/

section Runs

variable {k : Kernel} {t : FileTree Bytes} {src dst : Path}

/-- What a copy is to come to: every listed file is at its target, and still at its
source. -/
def Copied (k : Kernel) (t : FileTree Bytes) (dst : Path) (l : Listing) (u : FileTree Bytes) : Prop :=
  ∀ f ∈ l.files, ∀ bs, k.read t f.1 = some bs →
    k.read u (target_path dst f.2) = some bs ∧ k.read u f.1 = some bs

/-- What is known in each phase. -/
def At (k : Kernel) (t : FileTree Bytes) (src dst : Path) (u : FileTree Bytes)
    (copies : Nat → Copy) : Phase → Prop
  | .queued => u = t ∧ ∀ n, copies n = .closed
  | .walking => u = t ∧ ∀ n, copies n = .closed
  | .checking l => IsListing k t src l ∧ u = t ∧ ∀ n, copies n = .closed
  | .renaming _ => False
  | .making l _ => IsListing k t src l ∧ SourcesKept k t l u ∧ ∀ n, copies n = .closed
  | .working l ws next failed => IsListing k t src l ∧ Working k t dst l u copies ws next failed
  | .cleaning l _ => IsListing k t src l ∧ Copied k t dst l u
  | .ending => ∀ l, IsListing k t src l → Copied k t dst l u
  | .finished => ∀ l, IsListing k t src l → Copied k t dst l u

/-- The invariant of a copy job whose calls work and open only what is spares_files. -/
structure Inv (k : Kernel) (t : FileTree Bytes) (src dst : Path) (s : State) : Prop where
  op_eq : s.runner.op = .copy
  src_eq : s.runner.src = src
  dst_eq : s.runner.dst = dst
  crew : 0 < s.runner.nthreads
  phase : At k t src dst s.tree s.copies s.runner.phase

theorem copied_spec {s : State} {w : Nat} {task : Task} {f : Path × List String}
    (h : s.copied w = some (task, f)) : ∃ l ws next failed,
      s.runner.phase = .working l ws next failed ∧ ws[w]? = some (.copy task) ∧
        l.files[task.idx]? = some f := by
  unfold State.copied at h
  split at h
  · rename_i l ws next failed hp
    split at h
    · rename_i task' hw
      obtain ⟨f', hf, he⟩ := Option.map_eq_some_iff.mp h
      cases he
      exact ⟨l, ws, next, failed, hp, hw, hf⟩
    · cases h
  · cases h

/-- A call of a copy. -/
theorem inv_call {s s' : State} {w : Nat} {c : Call} {err : Option Errno} (h : Inv k t src dst s)
    (hworks : Works k s (.call w c err)) (haside : SparesFiles k s (.call w c err))
    (hs : step k s (.call w c err) = some s') : Inv k t src dst s' := by
  have hfail := hworks s' hs
  simp only [step] at hs
  split at hs
  · cases hs
  · rename_i task sf rel hcopied
    obtain ⟨⟨u', p⟩, hc, rfl⟩ := Option.map_eq_some_iff.mp hs
    obtain ⟨l, ws, next, failed, hp, hw, hf⟩ := copied_spec hcopied
    obtain ⟨hop, hsrc, hdst, hcrew, hat⟩ := h
    rw [hp] at hat
    obtain ⟨hl, hwork⟩ := hat
    rw [target_path_eq, hdst] at hc
    have hcall := hwork.call (.of_map _ hl.nodup) hw hf hc ?_
    · cases p with
      | goes_on x =>
          refine ⟨hop, hsrc, hdst, hcrew, ?_⟩
          show At k t src dst u' _ s.runner.phase
          rw [hp]
          exact ⟨hl, hcall⟩
      | ended res =>
          cases res with
          | ok m =>
              have hsend : State.send s.runner w (.report task true)
                  = { s.runner with
                      phase := .working l (ws.set w (.report task true)) next failed } := by
                unfold State.send
                rw [hp]
              simp only [State.after, hsend]
              exact ⟨hop, hsrc, hdst, hcrew, hl, hcall⟩
          | error e =>
              -- its worker is failing
              have hsend : State.send s.runner w (.fail task (some e))
                  = { s.runner with
                      phase := .working l (ws.set w (.fail task (some e))) next failed } := by
                unfold State.send
                rw [hp]
              have hmem : Worker.fail task (some e) ∈ ws.set w (.fail task (some e)) :=
                List.mem_of_getElem? (Pool.set_self hw)
              simp only [State.after, hsend, State.failing, List.any_eq_false] at hfail
              exact absurd rfl (hfail _ hmem)
    · rintro rfl d n hplace g hg
      have hfiles : s.files = l.files := by
        unfold State.files
        rw [hp]
      have := haside task (sf, rel) d n hcopied (by rwa [target_path_eq, hdst]) g (hfiles ▸ hg)
      rwa [target_path_eq, hdst] at this

/-- A call of the rest of the job. -/
theorem inv_job {s s' : State} {ev : Mover.Event} (h : Inv k t src dst s)
    (hworks : Works k s (.job ev)) (hs : step k s (.job ev) = some s') : Inv k t src dst s' := by
  have hfail := hworks s' hs
  obtain ⟨u, r, copies⟩ := s
  obtain ⟨hop, hsrc, hdst, hcrew, hat⟩ := h
  dsimp only at hop hsrc hdst hcrew hat
  simp only [step] at hs
  split at hs
  · cases hs
  · rename_i hnot
    obtain ⟨x, hx, rfl⟩ := Option.map_eq_some_iff.mp hs
    have hinv : ∀ (v : FileTree Bytes) (p : Phase) (job : Job), At k t src dst v copies p →
        Inv k t src dst ⟨v, { r with phase := p, job := job }, copies⟩ := fun v p job hp =>
      ⟨hop, hsrc, hdst, hcrew, hp⟩
    cases Runner.step_cases hx with
    | started f hp =>
        rw [hp] at hat
        exact hinv _ _ _ hat
    | unwalked ev e hp => simp [State.failing, Job.failed_with] at hfail
    | walked fuel l hp hw =>
        rw [hp] at hat
        obtain ⟨rfl, hclosed⟩ := hat
        exact hinv u (.checking l) _ ⟨⟨fuel, hsrc ▸ hw⟩, rfl, hclosed⟩
    | checked_fast f l hp hmv =>
        rw [hop] at hmv
        cases hmv
    | checked_slow f l hp =>
        rw [hp] at hat
        obtain ⟨hl, rfl, hclosed⟩ := hat
        exact hinv u (.making l 0) r.job ⟨hl, ⟨Builds.refl u, fun _ _ _ h => h⟩, hclosed⟩
    | renamed_tree f l _ hp =>
        rw [hp] at hat
        exact hat.elim
    | unrenamed_tree f l hp =>
        rw [hp] at hat
        exact hat.elim
    | made f l n rel hp hn =>
        rw [hp] at hat
        obtain ⟨hl, hk, hclosed⟩ := hat
        exact hinv _ (.making l (n + 1)) _
          ⟨hl, hk.grows (create_dir_all_grows k u (r.dst.down rel) _), hclosed⟩
    | spawned f l n hp hn =>
        rw [hp] at hat
        obtain ⟨hl, hk, hclosed⟩ := hat
        refine hinv u (.working l _ 0 0) r.job ⟨hl, hk, rfl, fun n _ => hclosed n, fun _ => False,
          fun _ h => h.elim, fun _ h => h.elim, ?_⟩
        exact Pool.Books.start hcrew rfl (by simp) (fun _ _ => trivial) fun _ _ => trivial
    | worked i f l ws next failed w y hp hw hy =>
        rw [hp] at hat
        obtain ⟨hl, hwork⟩ := hat
        have hcopy : ∀ task, w ≠ .copy task := by
          rintro task rfl
          -- a worker at a copy makes its calls one by one
          apply hnot
          cases hf : l.files[task.idx]? with
          | some f => simp [State.is_copy, State.copied, hp, hw, hf]
          | none =>
              obtain ⟨S, -, -, hB⟩ := hwork.books
              obtain ⟨-, f, hf', -⟩ := hB.held i _ _ hw rfl
              rw [hf] at hf'
              cases hf'
        exact hinv _ (.working l _ _ _) _
          ⟨hl, hwork.work (.of_map _ hl.nodup) hop hw hcopy hy⟩
    | joined f l ws next failed hp hws =>
        rw [hp] at hat
        obtain ⟨hl, hwork⟩ := hat
        obtain ⟨S, -, -, hB⟩ := hwork.books
        rw [hwork.well] at hB
        refine hinv u (.cleaning l failed) r.job ⟨hl, fun g hg bs hbs => ?_⟩
        rw [target_path_eq]
        exact ⟨(hB.over rfl hws hg).2 bs hbs, hwork.kept.source g hg bs hbs⟩
    | cleaned f l hp hmv =>
        rw [hop] at hmv
        cases hmv
    | kept f l failed hp hnc =>
        rw [hp] at hat
        obtain ⟨hl, hcopied⟩ := hat
        refine hinv u .ending r.job fun l' hl' => ?_
        obtain rfl := hl.det hl'
        exact hcopied
    | ended f hp =>
        rw [hp] at hat
        exact hinv _ .finished _ hat

theorem inv_step {s s' : State} {e : Event} (h : Inv k t src dst s)
    (hc : Works k s e ∧ SparesFiles k s e) (hs : step k s e = some s') : Inv k t src dst s' := by
  cases e with
  | job ev => exact inv_job h hc.1 hs
  | call w c err => exact inv_call h hc.1 hc.2 hs

end Runs

/-- **A copy reproduces its source** and leaves it alone, under every schedule and
however the bytes are cut into reads and writes, if no call fails and no destination
that is created or emptied is what a listed source leads to or where the target of
another file leads. -/
theorem copy_reproduces (k : Kernel) (h : Host) (t : FileTree Bytes) (src final_dst : PathBuf) :
    ∀ s, Reach (step k) (fun s e => Works k s e ∧ SparesFiles k s e)
        (.start t (spawn h .copy src final_dst)) s → s.runner.phase = .finished →
      ∀ l, IsListing k t src.path l → Copied k t final_dst.path l s.tree := by
  intro s hrun hend
  have hinv : Inv k t src.path final_dst.path s :=
    hrun.inv ⟨rfl, rfl, rfl, h.nthreads_pos, rfl, fun _ => rfl⟩ fun _ _ _ hi hc hs =>
      inv_step hi hc hs
  have hat := hinv.phase
  rw [hend] at hat
  exact hat

/-! ## Small jobs -/

/-- `Works`, computed. -/
def works (k : Kernel) (s : State) (e : Event) : Bool := (step k s e).all fun s' => !s'.failing

theorem works_spec {k : Kernel} {s : State} {e : Event} (h : works k s e = true) : Works k s e := by
  intro s' hs
  unfold works at h
  rw [hs, Option.all_some] at h
  simpa using h

/-- `SparesFiles`, computed. -/
def spares_files (k : Kernel) (s : State) : Event → Bool
  | .call w .create_dst _ =>
    match s.copied w with
    | none => true
    | some (_, f) =>
      match k.place s.tree (target_path s.runner.dst f.2) with
      | none => true
      | some (d, n) => s.files.all fun g => k.stat s.tree g.1 ≠ some (d ++ [n]) &&
          (g = f || k.stat s.tree (target_path s.runner.dst g.2) ≠ some (d ++ [n]))
  | _ => true

theorem spares_files_spec {k : Kernel} {s : State} {e : Event} (h : spares_files k s e = true) :
    SparesFiles k s e := by
  unfold SparesFiles
  split
  · intro task f d n hcopied hp g hg
    simp only [spares_files, hcopied, hp, List.all_eq_true] at h
    have := h g hg
    simp only [Bool.and_eq_true, Bool.or_eq_true, decide_eq_true_eq] at this
    exact ⟨this.1, fun hgf => this.2.resolve_left hgf⟩
  · trivial

/-- A directory with a file of two bytes and a link to it. -/
def tree_c : FileTree Bytes :=
  ((FileTree.empty.with_ [] "a" .dir).with_ ["a"] "f" (.file [1, 2])).with_ ["a"] "g"
    (.symlink (.abs ["a", "f"]))

/-- Two processors. -/
def pair_host : Host where
  mounts := []
  cpus := some 2

/-- Two workers copy it side by side, one of them a byte at a time. -/
theorem copy_reproduces_pair : ∃ (s : State) (l : Listing), s.runner.phase = .finished ∧
    IsListing box tree_c (.abs ["a"]) l ∧ l.files.length = 2 ∧
      Copied box tree_c (.abs ["b"]) l s.tree := by
  let l : Listing := ⟨[(.abs ["a", "g"], ["g"]), (.abs ["a", "f"], ["f"])], [[]], 6⟩
  have hl : IsListing box tree_c (.abs ["a"]) l := ⟨3, by decide⟩
  have hrun : (exec_if (step box) (fun s e => works box s e && spares_files box s e)
      (.start tree_c (spawn pair_host .copy (.abs ["a"]) (.abs ["b"])))
      [.job (.main .none), .job (.walk 3), .job (.main .none), .job (.main .none),
        .job (.main .none), .job (.worker 0 .none), .job (.worker 1 .none),
        .job (.worker 0 .none), .job (.worker 1 .none), .job (.worker 0 .none),
        .job (.worker 1 .none), .call 0 .open_src none, .call 1 .open_src none,
        .call 0 .create_dst none, .call 1 .create_dst none, .call 0 (.read 0) none,
        .call 1 (.read 1) none, .call 0 (.write 0) none, .call 1 (.write 0) none,
        .call 1 (.write 0) none, .call 0 (.read 0) none, .call 0 (.write 0) none,
        .call 0 (.read 0) none, .call 1 (.read 0) none, .job (.worker 0 .none),
        .job (.worker 1 .none), .job (.worker 0 .none), .job (.worker 1 .none),
        .job (.main .none), .job (.main .none), .job (.main .none)]).map
          (fun s => s.runner.phase) = some .finished := by
    decide
  obtain ⟨s, hs, hend⟩ := Option.map_eq_some_iff.mp hrun
  have hreach := reach_of_exec_if (C := fun s e => Works box s e ∧ SparesFiles box s e)
    (fun s e h => by
      rw [Bool.and_eq_true] at h
      exact ⟨works_spec h.1, spares_files_spec h.2⟩) hs
  exact ⟨s, l, hend, hl, rfl, copy_reproduces box pair_host tree_c (.abs ["a"]) (.abs ["b"]) s
    hreach hend l hl⟩

/-- A directory with a file, and a link to the directory. -/
def tree_l : FileTree Bytes :=
  ((FileTree.empty.with_ [] "a" .dir).with_ ["a"] "f" (.file [1])).with_ [] "l"
    (.symlink (.abs ["a"]))

/-- `/a/f` copied to `/l/f`, to be overwritten: the handler accepts it, no call
fails, and the file is empty. -/
theorem copy_empties_source : ¬ ∀ (k : Kernel) (h : Host) (t : FileTree Bytes)
    (src dst final_dst : PathBuf) (strategy : Strategy),
    resolve k t src dst strategy = .ok final_dst →
    ∀ s, Reach (step k) (Works k) (.start t (spawn h .copy src final_dst)) s →
      s.runner.phase = .finished → ∀ l, IsListing k t src.path l →
        Copied k t final_dst.path l s.tree := by
  intro hall
  have hres : resolve box tree_l (.abs ["a", "f"]) (.abs ["l", "f"]) .overwrite
      = .ok (.abs ["l", "f"]) := by decide
  have hrun : (exec_if (step box) (works box)
      (.start tree_l (spawn box_host .copy (.abs ["a", "f"]) (.abs ["l", "f"])))
      [.job (.main .none), .job (.walk 3), .job (.main .none), .job (.main .none),
        .job (.worker 0 .none), .job (.worker 0 .none), .job (.worker 0 .none),
        .call 0 .open_src none, .call 0 .create_dst none, .call 0 (.read 0) none,
        .job (.worker 0 .none), .job (.worker 0 .none), .job (.main .none),
        .job (.main .none), .job (.main .none)]).map
          (fun s => (s.runner.phase, box.read s.tree (.abs ["a", "f"])))
            = some (.finished, some []) := by
    decide
  obtain ⟨s, hs, hout⟩ := Option.map_eq_some_iff.mp hrun
  obtain ⟨hend, hread⟩ := Prod.mk.inj hout
  have hl : IsListing box tree_l (.abs ["a", "f"]) ⟨[(.abs ["a", "f"], [])], [], 1⟩ :=
    ⟨3, by decide⟩
  have hcopied := hall box box_host tree_l _ _ _ .overwrite hres s
    (reach_of_exec_if (fun _ _ h => works_spec h) hs) hend _ hl
  have hsrc := (hcopied (.abs ["a", "f"], []) List.mem_cons_self [1] (by decide)).2
  rw [hread] at hsrc
  cases hsrc

end WebDavs.Mover.Chunks
