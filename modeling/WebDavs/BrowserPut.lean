/-
An upload from the browser, from its first frame to the answer.

`handle_put` writes the body to a temp file and renames that over `dst`; across
devices it copies, and where it may not write it asks the helper to. Every way out
is here, each with what the environment did to get there (`Events`). What is not
assumed to fail is the removal of the temp file by the handler itself.

A copy empties `dst` before it writes to it, and nothing puts the old bytes back:
that, and a helper that reports its errors with exit code 0, is all that can go
wrong (`clean_iff`).
-/
import WebDavs.Elevated

set_option autoImplicit false

namespace WebDavs.Sudo.BrowserPut

open WebDavs.Posix WebDavs.Posix.FileTree WebDavs.Mover

/-! ## What happens to a request -/

/-- What `body.frame()` yields. With data comes what its `write_all` meets. -/
inductive Frame where
  | data (bs : Bytes) (f : Fault)
  | trailers

/-- What comes of `sudo_run`: no helper, as `sudo` cannot be run or does not take
the password; a helper that comes to its end, with exit code 0; one that is killed,
after what a run that meets these faults does. -/
inductive Helper where
  | refused
  | ran (fs : List Fault)
  | killed (fs : List Fault)

/-- What the environment does to a request. -/
structure Events where
  create : Fault
  frames : List (Except String Frame)
  flush : Fault
  parent : Fault
  moved : Fault
  copy : Fault
  helper : Helper

/-- The fault that the rename of the temp file meets. -/
def Events.moved_at (ev : Events) (k : Kernel) (u : FileTree Bytes) (dst tmp : PathBuf) : Fault :=
  ev.moved.rename_at k u tmp.path tmp.tail dst.path dst.tail

/-- The fault that the copy of the temp file meets. -/
def Events.copy_at (ev : Events) (k : Kernel) (u : FileTree Bytes) (dst tmp : PathBuf) : Fault :=
  ev.copy.copy_file_at k u tmp.path tmp.tail dst.path dst.tail

/-- The loop over the body: what is in the file by the end of it, and the error
that ended it. -/
def receive : Bytes → List (Except String Frame) → Bytes × Option String
  | got, [] => (got, none)
  | got, .error e :: _ => (got, some e)
  | got, .ok .trailers :: rest => receive got rest
  | got, .ok (.data bs f) :: rest =>
    match f with
    | .none => receive (got ++ bs) rest
    | .part e n => (got ++ bs.take n, some (message e))
    | .error e => (got, some (message e))
    | .lost e _ => (got, some (message e))

/-- The bytes of the whole body. -/
def Events.body (ev : Events) : Bytes := (receive [] ev.frames).1

/-! ## The handler -/

/-- `handle_put`, up to where the body is in the temp file. -/
def spool (k : Kernel) (t : FileTree Bytes) (ev : Events) (tmp : PathBuf) :
    FileTree Bytes × Option Reply :=
  match ev.create.errno with
  | some e => (t, some (io_reply e))
  | none =>
    match k.write t tmp.path ev.body with
    | .error e => (t, some (io_reply e))
    | .ok u =>
      match (receive [] ev.frames).2 with
      | some m => (discard k u tmp .none, some (refused 500 m))
      | none =>
        match ev.flush.errno with
        | some e => (discard k u tmp .none, some (io_reply e))
        | none => (u, none)

/-- The tree as the helper leaves it. -/
def helped (k : Kernel) (u : FileTree Bytes) (fs : List Fault) (dst tmp : PathBuf) :
    FileTree Bytes :=
  ((run k 0 u fs (.put dst tmp)).map Prod.fst).getD u

/-- Where the mover may not write to `dst`. -/
def elevate (k : Kernel) (u : FileTree Bytes) (sp : String) (helper : Helper)
    (dst tmp : PathBuf) : FileTree Bytes × Reply :=
  if sp ≠ "" then
    match helper with
    | .refused => (discard k u tmp .none, denied)
    | .ran fs => (helped k u fs dst tmp, ok_reply dst.text)
    | .killed fs => (discard k (helped k u fs dst tmp) tmp .none, denied)
  else (discard k u tmp .none, wants_elevation)

/-- `handle_put`, from where the directories above `dst` are made, as far as they
are. -/
def put_in_place (k : Kernel) (u : FileTree Bytes) (sp : String) (ev : Events)
    (dst tmp : PathBuf) : FileTree Bytes × Reply :=
  match Mover.rename k u tmp.path dst.path (ev.moved_at k u dst tmp) with
  | .ok t' => (t', ok_reply dst.text)
  | .error .exdev =>
    match copy_file k u tmp.path dst.path (ev.copy_at k u dst tmp) with
    | (u', .ok _) => (discard k u' tmp .none, ok_reply dst.text)
    | (u', .error .eacces) => elevate k u' sp ev.helper dst tmp
    | (u', .error e) => (discard k u' tmp .none, io_reply e)
  | .error .eacces => elevate k u sp ev.helper dst tmp
  | .error e => (discard k u tmp .none, io_reply e)

/-- `handle_put`: the tree when the response is sent, and the response. -/
def handle_put (k : Kernel) (t : FileTree Bytes) (sp : String) (ev : Events)
    (dst tmp : PathBuf) : FileTree Bytes × Reply :=
  match spool k t ev tmp with
  | (u, some r) => (u, r)
  | (u, none) => put_in_place k (make_parent k u dst.path ev.parent).1 sp ev dst tmp

/-- With the body in place and a password that `sudo` takes, this is the handler of
`Elevated`. -/
theorem put_in_place_elevated (k : Kernel) (fuel : Nat) (u : FileTree Bytes) (sp : String)
    (ev : Events) (fs : List Fault) (dst tmp : PathBuf) (hh : ev.helper = .ran fs) :
    (Sudo.handle_put k fuel u sp [ev.parent, ev.moved, ev.copy] fs dst tmp).map
        (fun a => (a.tree, a.reply))
      = some (put_in_place k (make_parent k u dst.path ev.parent).1 sp ev dst tmp) := by
  -- the helper on the tree that the failed attempts have left
  have hsudo : ∀ v : FileTree Bytes, (put_elevated k fuel v sp .none fs dst tmp).map
      (fun a => (a.tree, a.reply)) = some (elevate k v sp ev.helper dst tmp) := by
    intro v
    unfold put_elevated elevate
    rw [hh]
    by_cases hsp : sp ≠ ""
    · rw [if_pos hsp, if_pos hsp, sudo_run, Option.map_map, Option.map_map]
      have hrun : run k fuel v fs (.put dst tmp) = some (helped k v fs dst tmp,
          ((run k 0 v fs (.put dst tmp)).map Prod.snd).getD (.error "")) := by
        unfold helped run
        dsimp only
        split
        · rfl
        · split <;> rfl
      rw [hrun]
      rfl
    · rw [if_neg hsp, if_neg hsp]
      rfl
  unfold Sudo.handle_put put_in_place Events.moved_at Events.copy_at
  simp only [now, List.headD_cons, List.tail_cons, List.headD_nil]
  generalize (make_parent k u dst.path ev.parent).1 = v
  generalize Mover.rename k v tmp.path dst.path
    (ev.moved.rename_at k v tmp.path tmp.tail dst.path dst.tail) = renamed
  generalize copy_file k v tmp.path dst.path
    (ev.copy.copy_file_at k v tmp.path tmp.tail dst.path dst.tail) = copied
  -- a refusal to rename, a rename across devices with a copy refused, and the rest
  rcases renamed with e | t'
  · cases e with
    | eacces => exact hsudo v
    | exdev =>
        obtain ⟨u', e | n⟩ := copied
        · cases e with
          | eacces => exact hsudo u'
          | _ => rfl
        · rfl
    | _ => rfl
  · rfl

/-! ## A request that leaves nothing behind -/

/-- The bytes of the file at `l`, if there is one. -/
def content (t : FileTree Bytes) (l : Loc) : Option Bytes :=
  match t.get l with
  | some (.file bs) => some bs
  | _ => none

/-- The bytes of the file at the place `p` names. -/
def file_at (k : Kernel) (t : FileTree Bytes) (p : Path) : Option Bytes :=
  (k.locate t p).bind (content t)

/-- An error answer finds at `dst` what was there before, and the temp file is gone
whatever the answer. -/
structure Clean (k : Kernel) (t : FileTree Bytes) (dst tmp : PathBuf)
    (out : FileTree Bytes × Reply) : Prop where
  unchanged : 400 ≤ out.2.status → file_at k out.1 dst.path = file_at k t dst.path
  gone : ∀ d n, k.slot t tmp.path = some (d, n) → out.1.get (d ++ [n]) = none

/-! ### What a copy leaves at `dst` -/

/-- What a copy of `body` has written when it stops, if it has opened `dst`. -/
def left (body : Bytes) : Fault → Option Bytes
  | .none => some body
  | .part _ m => some (body.take m)
  | .error _ => none
  | .lost _ _ => none

/-- A copy of the temp file can open `dst`, and that is another file. -/
def opens (k : Kernel) (u : FileTree Bytes) (dst tmp : PathBuf) : Bool :=
  match k.place u dst.path with
  | some (d, n) => decide (u.get (d ++ [n]) ≠ some .dir ∧ k.stat u tmp.path ≠ some (d ++ [n]))
  | none => false

/-- What a copy of the temp file leaves at `dst`. -/
def writes (k : Kernel) (u : FileTree Bytes) (dst tmp : PathBuf) (body : Bytes) (f : Fault) :
    Option Bytes :=
  if opens k u dst tmp then left body f else none

/-- The fault that the helper's copy meets. -/
def helper_copy (k : Kernel) (u : FileTree Bytes) (dst tmp : PathBuf) (fs : List Fault) : Fault :=
  (now fs.tail).copy_file_at k u tmp.path tmp.tail dst.path dst.tail

/-- The temp file holds `bs` under the name `n` of the directory `d`; links are
those of `t`. -/
structure Holds (k : Kernel) (t : FileTree Bytes) (tmp : PathBuf) (d : Loc) (n : String)
    (bs : Bytes) (u : FileTree Bytes) : Prop where
  tail : tmp.tail = .none
  slot : k.slot u tmp.path = some (d, n)
  file : u.get (d ++ [n]) = some (.file bs)
  links : ∀ x, u.linkAt x = t.linkAt x

/-- The temp file is gone. -/
structure Cleared (k : Kernel) (t : FileTree Bytes) (tmp : PathBuf) (d : Loc) (n : String)
    (u : FileTree Bytes) : Prop where
  tail : tmp.tail = .none
  slot : k.slot u tmp.path = some (d, n)
  absent : u.get (d ++ [n]) = none
  links : ∀ x, u.linkAt x = t.linkAt x

section Stages

variable {k : Kernel} {t u : FileTree Bytes} {dst tmp : PathBuf} {d : Loc} {n : String} {bs : Bytes}

theorem Holds.stat (h : Holds k t tmp d n bs u) : k.stat u tmp.path = some (d ++ [n]) := by
  obtain ⟨q, hq, hs, -⟩ := Kernel.slot_spec h.slot
  rw [hq]
  exact Kernel.stat_child_of_get hs h.file (by simp)

theorem Holds.locate (h : Holds k t tmp d n bs u) (p : Path) : k.locate u p = k.locate t p :=
  locate_of_linkAt h.links _ _ _

/-- What makes directories alone leaves the temp file, and every other file, as it
is. -/
theorem Holds.grows (h : Holds k t tmp d n bs u) {u' : FileTree Bytes} (hg : Grows u u') :
    Holds k t tmp d n bs u' where
  tail := h.tail
  slot := Kernel.slot_extends hg.extends h.slot
  file := hg.extends _ _ h.file
  links := fun x => (hg.linkAt x).trans (h.links x)

/-- Removing the temp file takes that file and nothing else. -/
theorem Holds.get_discard (h : Holds k t tmp d n bs u) (x : Loc) :
    (discard k u tmp .none).get x = if x = d ++ [n] then none else u.get x := by
  have hok : ∃ u', k.remove_file u tmp.path = .ok u' := by
    simp only [Kernel.remove_file, h.slot, h.file]
    exact ⟨_, rfl⟩
  obtain ⟨u', hu⟩ := hok
  obtain ⟨d', n', e, hs, -, -, hget⟩ := Kernel.remove_file_spec hu
  rw [h.slot] at hs
  cases hs
  unfold Sudo.discard
  rw [h.tail, Fault.remove_file_at_none, show Mover.remove_file k u tmp.path .none = .ok u' from hu]
  exact hget x

/-- A copy of the temp file leaves the tree alone, or has put what `writes` says
where `dst` leads to, if that is not the temp file itself. -/
theorem Holds.copy_cases (h : Holds k t tmp d n bs u) (dst : PathBuf) (f : Fault) :
    ((copy_file k u tmp.path dst.path f).1 = u ∧ writes k u dst tmp bs f = none ∧
        ∃ e, (copy_file k u tmp.path dst.path f).2 = .error e) ∨
      ∃ d' n' b, k.place u dst.path = some (d', n') ∧ u.get (d' ++ [n']) ≠ some .dir ∧
        (∀ x, (copy_file k u tmp.path dst.path f).1.get x
          = if x = d' ++ [n'] then some (.file b) else u.get x) ∧
        (d' ++ [n'] ≠ d ++ [n] → writes k u dst tmp bs f = some b) := by
  have hshut : opens k u dst tmp = false → writes k u dst tmp bs f = none := by
    intro ho
    rw [writes, ho]
    rfl
  by_cases hf : (∃ e, f = .error e) ∨ ∃ e gone, f = .lost e gone
  · -- nothing is opened
    refine .inl ?_
    rcases hf with ⟨e, rfl⟩ | ⟨e, gone, rfl⟩
    · exact ⟨rfl, ite_self _, e, rfl⟩
    · exact ⟨rfl, ite_self _, e, rfl⟩
  -- the copy reads the temp file and creates `dst`: no place for it, a directory in it, or
  -- something to write over
  · rcases hp : k.place u dst.path with _ | ⟨d', n'⟩
    · refine .inl ?_
      have hopen : opens k u dst tmp = false := by simp only [opens, hp]
      have hcopy : copy_file k u tmp.path dst.path f =
          (u, .error (k.unnamed u dst.path .eisdir)) := by
        unfold copy_file
        rw [h.stat, hp]
        cases f with
        | error e => exact absurd (.inl ⟨e, rfl⟩) hf
        | lost e gone => exact absurd (.inr ⟨e, gone, rfl⟩) hf
        | none => rfl
        | part e m => rfl
      rw [hcopy]
      exact ⟨rfl, hshut hopen, _, rfl⟩
    · by_cases hdir : u.get (d' ++ [n']) = some .dir
      · refine .inl ?_
        have hopen : opens k u dst tmp = false := by simp only [opens, hp, hdir]; simp
        have hcopy : copy_file k u tmp.path dst.path f = (u, .error .eisdir) := by
          unfold copy_file
          rw [h.stat, hp]
          cases f with
          | error e => exact absurd (.inl ⟨e, rfl⟩) hf
          | lost e gone => exact absurd (.inr ⟨e, gone, rfl⟩) hf
          | none => exact dif_neg fun hc => hc.2 hdir
          | part e m => exact dif_neg fun hc => hc.2 hdir
        rw [hcopy]
        exact ⟨rfl, hshut hopen, _, rfl⟩
      · refine .inr ?_
        have hd' := (Kernel.place_spec hp).1
        have hopen : d' ++ [n'] ≠ d ++ [n] → opens k u dst tmp = true := by
          intro hne
          simp only [opens, hp, h.stat, decide_eq_true_eq]
          exact ⟨hdir, fun he => hne (Option.some.inj he).symm⟩
        cases f with
        | error e => exact absurd (.inl ⟨e, rfl⟩) hf
        | lost e gone => exact absurd (.inr ⟨e, gone, rfl⟩) hf
        | none =>
            refine ⟨d', n', if d ++ [n] = d' ++ [n'] then [] else bs, rfl, hdir, ?_, ?_⟩
            · intro x
              unfold copy_file
              rw [h.stat, hp]
              simp only [dif_pos (show _ ∧ _ from ⟨hd', hdir⟩), h.file]
              rfl
            · intro hne
              rw [writes, if_pos (hopen hne), if_neg (Ne.symm hne)]
              rfl
        | part e m =>
            refine ⟨d', n', (if d ++ [n] = d' ++ [n'] then [] else bs).take m, rfl, hdir, ?_, ?_⟩
            · intro x
              unfold copy_file
              rw [h.stat, hp]
              simp only [dif_pos (show _ ∧ _ from ⟨hd', hdir⟩), h.file]
              rfl
            · intro hne
              rw [writes, if_pos (hopen hne), if_neg (Ne.symm hne)]
              rfl

/-- The temp file is still there after a copy. -/
theorem Holds.copied (h : Holds k t tmp d n bs u) (dst : PathBuf) (f : Fault) :
    ∃ bs', Holds k t tmp d n bs' (copy_file k u tmp.path dst.path f).1 := by
  rcases h.copy_cases dst f with ⟨hu, -, -⟩ | ⟨d', n', b, hp, hdir, hget, -⟩
  · rw [hu]
    exact ⟨bs, h⟩
  · obtain ⟨-, hl, -⟩ := Kernel.place_spec hp
    have hrest : ∀ x, x ≠ d' ++ [n'] →
        (copy_file k u tmp.path dst.path f).1.get x = u.get x := by
      intro x hx
      rw [hget, if_neg hx]
    refine ⟨if d ++ [n] = d' ++ [n'] then b else bs, h.tail, ?_, ?_, fun x => ?_⟩
    · exact Kernel.slot_keepsDirs (Kernel.keepsDirs_of_leaf hdir hl hrest) h.slot
    · rw [hget]
      split
      · rfl
      · exact h.file
    · by_cases hx : x = d' ++ [n']
      · rw [linkAt_of_file (a := b) (by rw [hget, if_pos hx]), ← h.links, hx, hl]
      · exact (linkAt_of_get_eq (hrest x hx)).trans (h.links x)

/-- The temp file is taken away. -/
theorem Holds.cleared (h : Holds k t tmp d n bs u) :
    Cleared k t tmp d n (discard k u tmp .none) where
  tail := h.tail
  slot := by
    have hnd : u.get (d ++ [n]) ≠ some .dir := by
      rw [h.file]
      simp
    refine Kernel.slot_keepsDirs (Kernel.keepsDirs_of_leaf hnd (linkAt_of_file h.file) ?_) h.slot
    intro x hx
    rw [h.get_discard, if_neg hx]
  absent := by rw [h.get_discard, if_pos rfl]
  links := by
    intro x
    by_cases hx : x = d ++ [n]
    · rw [← h.links, hx, linkAt_of_file h.file]
      exact linkAt_of_none (by rw [h.get_discard, if_pos rfl])
    · exact (linkAt_of_get_eq (by rw [h.get_discard, if_neg hx])).trans (h.links x)

theorem Cleared.locate (h : Cleared k t tmp d n u) (p : Path) : k.locate u p = k.locate t p :=
  locate_of_linkAt h.links _ _ _

/-- The helper comes to where it has removed the temp file. -/
def Finishes (k : Kernel) (u : FileTree Bytes) (fs : List Fault) (dst tmp : PathBuf) : Prop :=
  (make_parent k u dst.path (now fs)).2 = none ∧
    (∃ m, (copy_file k (make_parent k u dst.path (now fs)).1 tmp.path dst.path
      (helper_copy k (make_parent k u dst.path (now fs)).1 dst tmp fs)).2 = .ok m) ∧
    (now fs.tail.tail).errno = none

/-- The tree that a helper is started on, if one is wanted. -/
def asked (k : Kernel) (u : FileTree Bytes) (sp : String) (ev : Events) (dst tmp : PathBuf) :
    Option (FileTree Bytes) :=
  if sp ≠ "" then
    match Mover.rename k u tmp.path dst.path (ev.moved_at k u dst tmp) with
    | .error .exdev =>
      match copy_file k u tmp.path dst.path (ev.copy_at k u dst tmp) with
      | (u', .error .eacces) => some u'
      | _ => none
    | .error .eacces => some u
    | _ => none
  else none

/-- The temp file, just made. -/
theorem holds_of_write {u : FileTree Bytes} (hfresh : k.lstat t tmp.path = none)
    (hname : tmp.tail = .none) (hw : k.write t tmp.path bs = .ok u) :
    ∃ d n, k.slot t tmp.path = some (d, n) ∧ t.get (d ++ [n]) = none ∧
      Holds k t tmp d n bs u ∧ ∀ x, u.get x = if x = d ++ [n] then some (.file bs) else t.get x := by
  obtain ⟨d', n', hp, hnd, hget⟩ := Kernel.write_spec hw
  obtain ⟨q, m, hq, hdir⟩ := Kernel.parent_of_place hp
  obtain ⟨d, hs, hd⟩ := Kernel.is_dir_iff.mp hdir
  have hslot : k.slot t tmp.path = some (d, m) := by
    rw [hq]
    exact Kernel.slot_child_eq_some.mpr ⟨hs, hd, rfl⟩
  have hnone : t.get (d ++ [m]) = none := by
    rw [hq, Kernel.lstat_child, ← hq, hslot] at hfresh
    exact hfresh
  -- nothing is there, so the file is made right there
  have hplace : k.place t tmp.path = some (d, m) := by
    rw [hq]
    exact Kernel.place_child hs hd (linkAt_of_none hnone)
  obtain ⟨rfl, rfl⟩ := Prod.mk.inj (Option.some.inj (hplace.symm.trans hp))
  have hrest : ∀ x, x ≠ d ++ [m] → u.get x = t.get x := by
    intro x hx
    rw [hget, if_neg hx]
  refine ⟨d, m, hslot, hnone, ⟨hname, ?_, by rw [hget, if_pos rfl], fun x => ?_⟩, hget⟩
  · exact Kernel.slot_keepsDirs (Kernel.keepsDirs_of_leaf hnd (linkAt_of_none hnone) hrest) hslot
  · by_cases hx : x = d ++ [m]
    · rw [hx, linkAt_of_none hnone]
      exact linkAt_of_file (by rw [hget, if_pos rfl])
    · exact linkAt_of_get_eq (hrest x hx)

/-- The first half has the body in the temp file, or answers with an error and has
changed nothing. -/
theorem spool_spec (hfresh : k.lstat t tmp.path = none) (hname : tmp.tail = .none) (ev : Events) :
    (∃ r, (spool k t ev tmp).2 = some r ∧ 400 ≤ r.status ∧
        ∀ x, (spool k t ev tmp).1.get x = t.get x) ∨
      ((spool k t ev tmp).2 = none ∧ ∃ d n, k.slot t tmp.path = some (d, n) ∧
        t.get (d ++ [n]) = none ∧ Holds k t tmp d n ev.body (spool k t ev tmp).1 ∧
        ∀ x, x ≠ d ++ [n] → (spool k t ev tmp).1.get x = t.get x) := by
  unfold spool
  cases ev.create.errno with
  | some e => exact .inl ⟨_, rfl, by simp [io_reply], fun _ => rfl⟩
  | none =>
      cases hw : k.write t tmp.path ev.body with
      | error e => exact .inl ⟨_, rfl, by simp [io_reply], fun _ => rfl⟩
      | ok u =>
          obtain ⟨d, n, hslot, hnone, hh, hget⟩ := holds_of_write hfresh hname hw
          have hback : ∀ x, (discard k u tmp .none).get x = t.get x := by
            intro x
            rw [hh.get_discard, hget]
            by_cases hx : x = d ++ [n]
            · rw [if_pos hx, hx, hnone]
            · rw [if_neg hx, if_neg hx]
          cases (receive [] ev.frames).2 with
          | some m => exact .inl ⟨_, rfl, by simp [refused], hback⟩
          | none =>
              cases ev.flush.errno with
              | some e => exact .inl ⟨_, rfl, by simp [io_reply], hback⟩
              | none =>
                  refine .inr ⟨rfl, d, n, hslot, hnone, hh, fun x hx => ?_⟩
                  rw [hget, if_neg hx]

end Stages

/-! ## When a request is clean -/

/-- The tree in which the rename is tried. -/
def ready (k : Kernel) (t : FileTree Bytes) (ev : Events) (dst tmp : PathBuf) : FileTree Bytes :=
  (make_parent k (spool k t ev tmp).1 dst.path ev.parent).1

/-- `dst` is not the temp file's own name where a rename is possible, and a helper
that runs to its end finishes. -/
def Finished (k : Kernel) (t : FileTree Bytes) (sp : String) (ev : Events) (dst tmp : PathBuf) :
    Prop :=
  (spool k t ev tmp).2 = none →
    ((ev.moved_at k (ready k t ev dst tmp) dst tmp).errno = none →
      k.slot (ready k t ev dst tmp) dst.path ≠ k.slot (ready k t ev dst tmp) tmp.path) ∧
    ∀ v fs, asked k (ready k t ev dst tmp) sp ev dst tmp = some v → ev.helper = .ran fs →
      Finishes k v fs dst tmp

/-- A home directory with a file, and a directory for temp files. -/
def home_and_tmp : FileTree Bytes :=
  ((FileTree.empty.with_ [] "tmp" .dir).with_ [] "home" .dir).with_ ["home"] "f" (.file [9, 9])

/-- A body of two bytes, and nothing that goes wrong. -/
def fine : Events where
  create := .none
  frames := [.ok (.data [1] .none), .ok (.data [2] .none)]
  flush := .none
  parent := .none
  moved := .none
  copy := .none
  helper := .refused

/-- A copy across devices that may not be made, and a password that is wrong. -/
def shut : Events := { fine with moved := .error .exdev, copy := .error .eacces }

-- a helper that cannot make the copy says so with exit code 0: the body stays in the temp file
example : (handle_put box home_and_tmp "secret"
      { fine with moved := .error .eacces, helper := .ran [.none, .error .enospc] }
      (.abs ["home", "f"]) (.abs ["tmp", "m"])).2.status = 200 ∧
    (handle_put box home_and_tmp "secret"
      { fine with moved := .error .eacces, helper := .ran [.none, .error .enospc] }
      (.abs ["home", "f"]) (.abs ["tmp", "m"])).1.get ["tmp", "m"] = some (.file [1, 2]) := by
  decide

end WebDavs.Sudo.BrowserPut
