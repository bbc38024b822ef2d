/-
One upload with the directory to itself.

A reader of the target sees what was there before `open`, or the whole body and
nothing less: `upload_atomic`. The one way to break it is a target that is
itself a link to the temp name, for then the half-written temp file is what the
target path leads to.

The second part is about the answer. `flush` reports success for an upload whose
length is not the announced one, and renames nothing; `flush_truthful` says that
this is the only way for an `Ok` to be untrue.
-/
import WebDavs.UploadSteps

set_option autoImplicit false

namespace WebDavs.AutoFs

open WebDavs.Posix WebDavs.Posix.FileTree WebDavs.Steps

/-! ## What the target shows while the temp file is there -/

/-- Opening the target for writing would create the temp file: the target is a
link, or a chain of them, to the temp name. -/
def Shadowed (k : Kernel) (t : FileTree Nat) (af : AtomicFile) : Prop :=
  ∃ s, k.place t af.target_path = some s ∧ k.place t af.temp_path = some s

namespace Opening

variable {k : Kernel} {dm d₁ : Disk} {o : Spot} {af : AtomicFile}

/-- With nothing changed but the temp file, a target that does not lead to it
shows what it showed before. -/
theorem view (h : Opening k dm d₁ o af) {d : Disk}
    (hx : d.tree.get o.loc = some (.file dm.next) ∨ d.tree.get o.loc = none)
    (hrest : ∀ x, x ≠ o.loc → d.tree.get x = dm.tree.get x)
    (hino : ∀ i, i ≠ dm.next → (d.inode i).content = (dm.inode i).content)
    (hne : k.stat d.tree af.target_path ≠ some o.loc) :
    d.view k af.target_path = dm.view k af.target_path := by
  have hext : Extends dm.tree d.tree := by
    intro l e he
    have hl : l ≠ o.loc := fun hl => by
      rw [hl, h.free] at he
      cases he
    rw [hrest l hl, he]
  -- the target leads where it led: the temp file is new, and the target does not lead to it
  have hstat : k.stat d.tree af.target_path = k.stat dm.tree af.target_path := by
    rcases hx with hx | hx
    · refine Option.ext fun l => ⟨fun hl => ?_, fun hl => Kernel.stat_extends hext hl⟩
      refine (Kernel.stat_of_leaf hx hrest hl).resolve_left fun he => hne ?_
      rw [← he]
      exact hl
    · refine Kernel.stat_of_get_eq (fun l => ?_) _
      by_cases hl : l = o.loc
      · rw [hl, hx, h.free]
      · exact hrest l hl
  unfold Disk.view
  rw [hstat]
  cases hs : k.stat dm.tree af.target_path with
  | none => rfl
  | some l =>
      obtain ⟨e, he, -⟩ := Kernel.stat_spec hs
      have hl : l ≠ o.loc := fun hl => by
        rw [hl, h.free] at he
        cases he
      dsimp only
      rw [hrest l hl, he]
      cases e with
      | dir => rfl
      | symlink tgt => rfl
      | file i =>
          -- an inode that was there is not the one of the temp file
          have hi : i ≠ dm.next := Nat.ne_of_lt (dm.fresh he)
          dsimp only
          rw [hino i hi]

/-- A target that is no link to the temp name does not lead to the temp
file. -/
theorem not_shadowed {fs : AutoMkcolFs} {d : Disk} {path : List String}
    {fault : Option (Errno × Nat)} (h : Opening k dm d₁ o af)
    (htarget : af.target_path = fs.fspath path) (hroot : k.is_dir d.tree fs.root = true)
    (hens : fs.ensure_parent k d path fault = (dm, none)) (hs : ¬ Shadowed k d.tree af) :
    dm.view k af.target_path = d.view k af.target_path ∧
      k.stat d₁.tree af.target_path ≠ some o.loc := by
  have hx : d₁.tree.get o.loc = some (.file dm.next) := by rw [h.get, if_pos rfl]
  have hrest : ∀ l, l ≠ o.loc → d₁.tree.get l = dm.tree.get l := by
    intro l hl
    rw [h.get, if_neg hl]
  rcases AutoMkcolFs.ensure_parent_view hroot hens with rfl | ⟨l, n, hnone, hchild, hst, hdir, hempty⟩
  · refine ⟨rfl, fun hst => hs ⟨(o.base, o.temp_name), ?_, ?_⟩⟩
    · exact Kernel.place_of_stat_leaf hx h.free hrest hst
    · rw [h.temp]
      exact Kernel.place_child h.stat h.dir (linkAt_of_none h.free)
  · -- the parent is new, so there is nothing at the target to lead anywhere
    rw [← htarget] at hnone hchild
    have hfn : af.target_path.file_name = some n := by rw [hchild, Path.file_name_child]
    obtain ⟨hdirn, hne⟩ := h.target n hfn
    have hdirs : o.dir = fs.root.down path.dropLast := by
      have hp : (o.dir.child n).parent = ((fs.root.down path.dropLast).child n).parent := by
        rw [← hdirn, hchild]
      rw [Path.parent_child, Path.parent_child] at hp
      exact Option.some.inj hp
    obtain rfl : l = o.base := by
      have := h.stat
      rw [hdirs, hst] at this
      exact Option.some.inj this
    have hdm : k.stat dm.tree af.target_path = none := by
      rw [hchild]
      exact Kernel.stat_child_of_none hst (hempty [n] (by simp))
    refine ⟨by simp only [Disk.view, hdm, hnone], fun hl => ?_⟩
    have hloc : o.base ++ [n] ≠ o.loc := fun he => hne (by simpa [Spot.loc] using he.symm)
    have hd₁ : k.stat d₁.tree o.dir = some o.base := by
      rw [hdirs]
      refine Kernel.stat_extends (fun x e he => ?_) hst
      rw [hrest x (fun hxl => by rw [hxl, h.free] at he; cases he), he]
    rw [hdirn, Kernel.stat_child_of_none hd₁ (by rw [hrest _ hloc]; exact hempty [n] (by simp))]
      at hl
    cases hl

end Opening

/-! ## Runs of one upload -/

namespace Upload

/-- The upload and the disk, moving together. -/
def run (k : Kernel) (c : Crates) (s : Disk × Upload) (a : Act) : Option (Disk × Upload) :=
  s.2.step k c s.1 a

/-- What a committed upload has left: its file at the target, with the digest of
its body recorded, and no temp file. -/
structure Landed (k : Kernel) (c : Crates) (d : Disk) (u : Upload) : Prop where
  leads : ∃ l, k.stat d.tree u.af.target_path = some l ∧ d.tree.get l = some (.file u.ino)
  recorded : (d.inode u.ino).sha256 = some (c.hex_encode (c.sha256 u.sent))
  clean : k.lstat d.tree u.af.temp_path = none

/-- The invariant of an upload that is alone: until it commits the disk is the
one `open` left, but for the temp file's contents and, once dropped, the temp
file. -/
structure Alone (k : Kernel) (c : Crates) (d₁ : Disk) (o : Spot) (u₀ : Upload) (s : Disk × Upload) :
    Prop where
  books : Books c s.1 s.2
  ino : s.2.ino = u₀.ino
  born : s.2.born = u₀.born
  temp : s.2.af.temp_path = u₀.af.temp_path
  target : s.2.af.target_path = u₀.af.target_path
  others : ∀ i, i ≠ u₀.ino → (s.1.inode i).content = (d₁.inode i).content
  next : s.1.next = d₁.next
  waiting : s.2.af.committed = false → s.2.stage ≠ .dropped → s.1.tree = d₁.tree
  gone : s.2.af.committed = false → s.2.stage = .dropped →
    ∀ x, s.1.tree.get x = if x = o.loc then none else d₁.tree.get x
  landed : s.2.af.committed = true → Landed k c s.1 s.2

theorem Alone.held {k : Kernel} {c : Crates} {d₁ : Disk} {o : Spot} {u₀ : Upload}
    {s : Disk × Upload} (h : Alone k c d₁ o u₀ s) (h₀ : Held k o d₁ u₀)
    (hl : s.2.Live) : Held k o s.1 s.2 := by
  have ht := h.waiting hl.1 hl.2
  refine ⟨?_, ?_, ?_, ?_, ?_, ?_, ?_, ?_, ?_⟩
  · rw [h.temp, h₀.temp]
  · intro m hm
    rw [h.target] at hm ⊢
    exact h₀.target m hm
  · rw [h.born, h₀.stat]
  · rw [h.born, h₀.dir]
  · rw [h.born, h.target, h₀.not_dir]
  · rw [h.born, h.ino, h₀.made]
  · rw [h.born, ht]
    exact h₀.fades
  · rw [h.ino, ht]
    exact h₀.only
  · rw [h.ino, h.next]
    exact h₀.old

/-- What `commit` leaves when it renames: the upload's file at the target. -/
theorem landed_of_rename {k : Kernel} {c : Crates} {o : Spot} {d d' : Disk} {u u' : Upload}
    {fault : Option Errno} (h : Held k o d u) (hsent : u.af.hasher = u'.sent)
    (hino : u'.ino = u.ino) (htarget : u'.af.target_path = u.af.target_path)
    (htemp : u'.af.temp_path = u.af.temp_path)
    (hr : d.rename k u.af.temp_path u.af.target_path fault = .ok d') :
    Landed k c (AtomicFile.set_xattr_sha256 k d' u.af.target_path
      (c.hex_encode (c.sha256 u.af.hasher))) u' := by
  obtain ⟨m, hm, hne, -, -, hget, hst, hdir, hland⟩ := h.rename hr
  obtain ⟨htree, -, -, hsha⟩ := AtomicFile.set_xattr_sha256_spec k d' u.af.target_path
    (c.hex_encode (c.sha256 u.af.hasher))
  have hfile : d'.tree.get (o.base ++ [m]) = some (.file u.ino) := by rw [hget, if_pos rfl]
  refine ⟨⟨o.base ++ [m], ?_, ?_⟩, ?_, ?_⟩
  · rw [htree, htarget, hland]
  · rw [htree, hfile, hino]
  · rw [hino, ← hsent]
    exact hsha _ (Kernel.read_eq_some.mpr ⟨_, hland, hfile⟩)
  · have hloc : o.loc ≠ o.base ++ [m] := fun he => hne (by simpa [Spot.loc] using he)
    have hslot : k.slot d'.tree (o.dir.child o.temp_name) = some (o.base, o.temp_name) :=
      Kernel.slot_child_eq_some.mpr ⟨hst, hdir, rfl⟩
    have hgone : d'.tree.get o.loc = none := by rw [hget, if_neg hloc, if_pos rfl]
    rw [htree, htemp, h.temp, Kernel.lstat_child, hslot]
    exact hgone

theorem alone_step {k : Kernel} {c : Crates} {d₁ : Disk} {o : Spot} {u₀ : Upload}
    (h₀ : Held k o d₁ u₀) (hb : u₀.born = d₁.tree) {s s' : Disk × Upload} {a : Act}
      (h : Alone k c d₁ o u₀ s)
    (hs : run k c s a = some s') : Alone k c d₁ o u₀ s' := by
  obtain ⟨d, u⟩ := s
  obtain ⟨d', u'⟩ := s'
  have hs : u.step k c d a = some (d', u') := hs
  obtain ⟨hki, hkb, hkt, hkg, -, -⟩ := step_keeps hs
  have hbooks := books_step h.books hs
  have hino := hki.trans h.ino
  have hborn := hkb.trans h.born
  have htemp := hkt.trans h.temp
  have htarget := hkg.trans h.target
  cases step_cases hs with
  | wrote call hw =>
      -- a write goes to the inode of the temp and nowhere else
      obtain ⟨hnc, f, hf, hfi, hend⟩ := h.books.taking hw
      have hui : u.ino = u₀.ino := h.ino
      obtain ⟨f', bs, -, happ, hsame, -⟩ := AtomicFile.write_spec hf hend call
      have hnc' : (u.af.write d call).1.committed = false := hsame.committed.trans hnc
      have hdw : u.stage ≠ .dropped := by
        rw [hw]
        decide
      refine ⟨hbooks, hino, hborn, htemp, htarget, fun i hi => ?_, happ.next.trans h.next,
        fun _ _ => happ.tree.trans (h.waiting hnc hdw), fun _ hd => ?_, fun hc => ?_⟩
      · rw [happ.others i (by rw [hfi, hui]; exact hi)]
        exact h.others i hi
      · exfalso
        revert hd
        cases (u.af.write d call).2.2 <;> simp [outcome]
      · rw [hnc'] at hc
        cases hc
  | committed _ fault st ha hst hst' =>
      have hdw : u.stage ≠ .dropped := by rcases hst with hst | hst <;> rw [hst] <;> decide
      have hdst : st ≠ .dropped := by rcases hst' with rfl | rfl | rfl <;> decide
      obtain ⟨-, -, -, -, -, -, -, hnext, hcont⟩ := AtomicFile.commit_keeps k c u.af d fault
      obtain ⟨-, hhash, -⟩ := h.books.counted hst
      refine ⟨hbooks, hino, hborn, htemp, htarget, fun i hi => (hcont i).trans (h.others i hi),
        hnext.trans h.next, fun hc _ => ?_, fun _ hd => absurd hd hdst, fun hc => ?_⟩
      -- only the rename changes the tree, and after it the file is committed
      · have hcase := AtomicFile.commit_cases k c u.af d fault
        revert hc hcase
        generalize u.af.commit k c d fault = r
        intro hc hcase
        cases hcase with
        | again hcom => exact absurd hc (by simp [hcom])
        | mismatch hcom hm => exact h.waiting hcom hdw
        | unsynced hcom hm e hs => exact h.waiting hcom hdw
        | incomplete hcom hm hs hw => exact h.waiting hcom hdw
        | unrenamed hcom hm hs hw e hr => exact h.waiting hcom hdw
        | renamed hcom hm hs hw d' hr => cases hc
      -- of the ways a commit can end, two leave the file committed: the rename now, and one
      -- before
      · rcases AtomicFile.commit_committed hc with ⟨hcom, heq⟩ | ⟨d', hcom, -, -, hr, heq⟩
        · have hl := h.landed hcom
          rw [heq]
          exact ⟨hl.leads, hl.recorded, hl.clean⟩
        · rw [heq]
          exact landed_of_rename (h.held h₀ ⟨hcom, hdw⟩) hhash rfl rfl rfl hr
  | dropped hst =>
      -- a drop removes the temp only where the file was never committed
      cases hcom : u.af.committed with
      | true =>
          have hsame : u.af.drop k d = d := by simp [AtomicFile.drop, hcom]
          rw [hsame] at hbooks ⊢
          have hl := h.landed hcom
          exact ⟨hbooks, hino, hborn, htemp, htarget, h.others, h.next,
            fun _ hd => absurd rfl hd, fun hc _ => absurd hc (by simp [hcom]),
            fun _ => ⟨hl.leads, hl.recorded, hl.clean⟩⟩
      | false =>
          have hheld := h.held h₀ ⟨hcom, hst⟩
          have ht : d.tree = d₁.tree := h.waiting hcom hst
          have hstat : k.stat d.tree o.dir = some o.base := by
            rw [ht, ← hb]
            exact h₀.stat
          obtain ⟨hinode, hnext, -⟩ := hheld.drop
          refine ⟨hbooks, hino, hborn, htemp, htarget, fun i hi => ?_, hnext.trans h.next,
            fun _ hd => absurd rfl hd, fun _ _ x => ?_, fun hc => absurd hc (by simp [hcom])⟩
          · rw [hinode]
            exact h.others i hi
          · rw [← ht]
            exact hheld.drop_removes hstat hcom x

theorem alone_start {k : Kernel} {c : Crates} {dm d₁ : Disk} {o : Spot} {af : AtomicFile}
    (h : Opening k dm d₁ o af) : Alone k c d₁ o (start d₁ af) (d₁, start d₁ af) := by
  have hc : (start d₁ af).af.committed = false := h.committed
  refine ⟨books_start h, rfl, rfl, rfl, rfl, fun _ _ => rfl, rfl, fun _ _ => rfl,
    fun _ hd => ?_, fun hc' => ?_⟩
  · cases hd
  · rw [hc] at hc'
    cases hc'

/-- What is promised of an upload in a state of its run: the target reads as
before, or, once committed, as the whole body, complete and with its digest
recorded; and a dropped upload has left no temp file. -/
structure Promised (k : Kernel) (c : Crates) (old : Option (Option Bytes)) (s : Disk × Upload) :
    Prop where
  reads : s.1.view k s.2.af.target_path
    = if s.2.af.committed then some (some s.2.sent) else old
  complete : s.2.af.committed = true → Complete c s.2
  recorded : s.2.af.committed = true →
    ∃ i, k.read s.1.tree s.2.af.target_path = some i ∧
      (s.1.inode i).sha256 = some (c.hex_encode (c.sha256 s.2.sent)) ∧
      (s.1.inode i).content = s.2.sent
  clean : s.2.stage = .dropped → k.lstat s.1.tree s.2.af.temp_path = none

theorem promised_of_alone {k : Kernel} {c : Crates} {dm d₁ : Disk} {o : Spot} {af : AtomicFile}
    (h : Opening k dm d₁ o af) (hne : k.stat d₁.tree af.target_path ≠ some o.loc)
    {s : Disk × Upload} (ha : Alone k c d₁ o (start d₁ af) s) :
    Promised k c (dm.view k af.target_path) s := by
  obtain ⟨d, u⟩ := s
  have htarget : u.af.target_path = af.target_path := ha.target
  have htemp : u.af.temp_path = af.temp_path := ha.temp
  have hino₀ : (start d₁ af).ino = dm.next := by simp [start, h.file]
  have hothers : ∀ i, i ≠ dm.next → (d.inode i).content = (dm.inode i).content := by
    intro i hi
    refine (ha.others i (by rw [hino₀]; exact hi)).trans ?_
    simp only [h.inode, if_neg hi]
  have hx₁ : d₁.tree.get o.loc = some (.file dm.next) := by rw [h.get, if_pos rfl]
  cases hcom : u.af.committed with
  | true =>
      obtain ⟨⟨l, hst, hg⟩, hrec, hclean⟩ := ha.landed hcom
      obtain ⟨hcont, hcomplete⟩ := ha.books.sealed hcom
      refine ⟨?_, fun _ => hcomplete, fun _ => ⟨u.ino, ?_, hrec, hcont⟩, fun _ => hclean⟩
      · rw [Disk.view_eq_file hst hg, if_pos hcom]
        exact congrArg (some ∘ some) hcont
      · exact Kernel.read_eq_some.mpr ⟨l, hst, hg⟩
  | false =>
      refine ⟨?_, fun hc => absurd hc (by simp [hcom]), fun hc => absurd hc (by simp [hcom]),
        fun hd => ?_⟩
      · rw [if_neg (by simp [hcom])]
        by_cases hd : u.stage = .dropped
        · have hg := ha.gone hcom hd
          refine (congrArg (d.view k) htarget).trans (h.view (.inr ?_) (fun x hxl => ?_) hothers ?_)
          · rw [hg, if_pos rfl]
          · rw [hg, if_neg hxl, h.get, if_neg hxl]
          · intro hst
            obtain ⟨e, he, -⟩ := Kernel.stat_spec hst
            rw [hg, if_pos rfl] at he
            cases he
        · have ht : d.tree = d₁.tree := ha.waiting hcom hd
          refine (congrArg (d.view k) htarget).trans
            (h.view (.inl ?_) (fun x hxl => ?_) hothers ?_)
          · rw [ht, hx₁]
          · rw [ht, h.get, if_neg hxl]
          · rw [ht]
            exact hne
      · have hg := ha.gone hcom hd
        show k.lstat d.tree u.af.temp_path = none
        rw [htemp, h.temp, Kernel.lstat_child]
        cases hs : k.slot d.tree (o.dir.child o.temp_name) with
        | none => rfl
        | some sl =>
            obtain ⟨D, n⟩ := sl
            obtain ⟨hst, hD, rfl⟩ := Kernel.slot_child_eq_some.mp hs
            -- the directory is the one the temp file was made in
            have hgdm : ∀ x, d.tree.get x = dm.tree.get x := by
              intro x
              rw [hg, h.get]
              by_cases hxl : x = o.loc
              · rw [if_pos hxl, hxl, h.free]
              · rw [if_neg hxl, if_neg hxl]
            rw [Kernel.stat_of_get_eq hgdm, h.stat] at hst
            cases hst
            exact (hg _).trans (if_pos rfl)

end Upload

/-- **An upload is atomic.** Opened on a target that is no link to the temp
name, and with nobody else in the directory, whatever is written, whatever
fails and wherever it is given up: the target reads as its old state or as the
whole body, it changes in a commit only, after no write has failed, and only a
complete body with the right checksum is committed, its own digest recorded. -/
theorem upload_atomic (k : Kernel) (c : Crates) (fs : AutoMkcolFs) (d d₁ : Disk)
    (path : List String) (options : OpenOptions) (fault : OpenFault) (af : AtomicFile)
    (hopen : fs.open_ k d path options fault = (d₁, .ok (.atomic af)))
    (hroot : k.is_dir d.tree fs.root = true) (hs : ¬ Shadowed k d.tree af)
    {s : Disk × Upload} (h : Reach (Upload.run k c) Any (d₁, Upload.start d₁ af) s) :
    Upload.Promised k c (d.view k (fs.fspath path)) s ∧
      ∀ a s', Upload.run k c s a = some s' →
        s'.1.view k (fs.fspath path) ≠ s.1.view k (fs.fspath path) →
        s.2.af.committed = false ∧ s'.2.af.committed = true ∧ s.2.stage ≠ .failed ∧
          ∃ f, a = .flush f ∨ a = .metadata f := by
  obtain ⟨dm, o, hens, hop, htarget, -⟩ := AutoMkcolFs.open_spec hopen
  obtain ⟨hview, hne⟩ := hop.not_shadowed htarget hroot hens hs
  have halone : ∀ {s}, Reach (Upload.run k c) Any (d₁, Upload.start d₁ af) s →
      Upload.Alone k c d₁ o (Upload.start d₁ af) s := fun h =>
    h.inv (Upload.alone_start hop) fun _ _ _ hi _ hst =>
      Upload.alone_step (Upload.held_start hop) rfl hi hst
  have hprom : ∀ {s}, Reach (Upload.run k c) Any (d₁, Upload.start d₁ af) s →
      Upload.Promised k c (d.view k (fs.fspath path)) s := by
    intro s h
    rw [← htarget, ← hview]
    exact Upload.promised_of_alone hop hne (halone h)
  refine ⟨hprom h, fun a s' hrun hdiff => ?_⟩
  -- both views are spelled out by `Promised.reads`, so a change of the view is a change of
  -- what they say
  have hp := (hprom h).reads
  have hp' := (hprom (h.next trivial hrun)).reads
  have ht : s.2.af.target_path = fs.fspath path := (halone h).target.trans htarget
  have ht' : s'.2.af.target_path = fs.fspath path :=
    (halone (h.next trivial hrun)).target.trans htarget
  rw [ht] at hp
  rw [ht'] at hp'
  rw [hp, hp'] at hdiff
  have hbooks := (halone h).books
  -- a write keeps `committed`, a drop touches nothing the view reads: only a commit is left
  cases Upload.step_cases (show s.2.step k c s.1 a = some s' from hrun) with
  | wrote call hw =>
      obtain ⟨hnc, f, hf, -, hend⟩ := hbooks.taking hw
      obtain ⟨-, -, -, -, hsame, -⟩ := AtomicFile.write_spec hf hend call
      exact absurd (by rw [hsame.committed, hnc]; rfl) hdiff
  | dropped hst => exact absurd rfl hdiff
  | committed _ fault st ha hst hst' =>
      refine ⟨?_, ?_, by rcases hst with hst | hst <;> simp [hst], fault, ha⟩
      · by_contra hc
        rw [Bool.not_eq_false] at hc
        have hagain : (s.2.af.commit k c s.1 fault).1 = s.2.af := by simp [AtomicFile.commit, hc]
        exact hdiff (by rw [hagain])
      · by_contra hc
        have hc₀ : s.2.af.committed = false := by
          by_contra hc₀
          rw [Bool.not_eq_false] at hc₀
          refine hc ?_
          simp [AtomicFile.commit, hc₀]
        exact hdiff (by rw [if_neg hc, if_neg (by simp [hc₀])])

/-- An upload of two bytes to an empty server, driven to its end. -/
theorem upload_atomic_two_bytes : ∃ (d₁ : Disk) (af : AtomicFile) (s : Disk × Upload),
    serving.open_ host .blank ["a"] (putting (some 2)) unhindered = (d₁, .ok (.atomic af)) ∧
      s.2.af.committed = true ∧ s.2.stage = .dropped ∧
      Upload.Promised host digests (Disk.blank.view host (serving.fspath ["a"])) s := by
  have hopen : (atomic_of (serving.open_ host .blank ["a"] (putting (some 2)) unhindered)).isSome
      = true := by decide
  obtain ⟨⟨d₁, af⟩, hop⟩ := Option.isSome_iff_exists.mp hopen
  have hrun : ((atomic_of (serving.open_ host .blank ["a"] (putting (some 2)) unhindered)).bind
      fun x => (exec (Upload.run host digests) (x.1, Upload.start x.1 x.2)
        [.write (.bytes [1] none), .write (.buf [[], [2]] [.ok 1]), .flush ⟨none, none⟩,
          .metadata ⟨none, none⟩, .drop]).map fun s => (s.2.af.committed, s.2.stage))
      = some (true, .dropped) := by decide
  have hplace : ((atomic_of (serving.open_ host .blank ["a"] (putting (some 2)) unhindered)).map
      fun x => decide (host.place Disk.blank.tree x.2.target_path
        = host.place Disk.blank.tree x.2.temp_path)) = some false := by decide
  rw [hop, Option.bind_some] at hrun
  rw [hop] at hplace
  obtain ⟨s, hs, hout⟩ := Option.map_eq_some_iff.mp hrun
  have hout' := Prod.mk.inj hout
  refine ⟨d₁, af, s, atomic_of_eq_some hop, hout'.1, hout'.2,
    (upload_atomic host digests serving .blank d₁ ["a"] (putting (some 2)) unhindered af
      (atomic_of_eq_some hop) (by decide) ?_ (reach_of_exec hs)).1⟩
  rintro ⟨x, hx, hy⟩
  have : host.place Disk.blank.tree af.target_path = host.place Disk.blank.tree af.temp_path := by
    rw [hx, hy]
  simp [this] at hplace

/-- A target that is a link to its own temp name. -/
def Disk.looped : Disk := Disk.of
  (FileTree.empty.with_ [] "a" (.symlink ⟨false, [.normal "a.uploading.nzk_webdavs"]⟩))
  (fun _ => ⟨[], none⟩) 0 (by decide)

/-- Through such a link a reader sees the first byte of two. -/
theorem upload_seen_through_link : ¬ ∀ (k : Kernel) (c : Crates) (fs : AutoMkcolFs) (d d₁ : Disk)
    (path : List String) (options : OpenOptions) (fault : OpenFault) (af : AtomicFile),
    fs.open_ k d path options fault = (d₁, .ok (.atomic af)) →
    k.is_dir d.tree fs.root = true →
    ∀ s, Reach (Upload.run k c) Any (d₁, Upload.start d₁ af) s →
      Upload.Promised k c (d.view k (fs.fspath path)) s := by
  intro hall
  have hopen : (atomic_of (serving.open_ host .looped ["a"] (putting none) unhindered)).isSome
      = true := by decide
  obtain ⟨⟨d₁, af⟩, hop⟩ := Option.isSome_iff_exists.mp hopen
  have hrun : ((atomic_of (serving.open_ host .looped ["a"] (putting none) unhindered)).bind
      fun x => (exec (Upload.run host digests) (x.1, Upload.start x.1 x.2)
        [.write (.bytes [1] none)]).map fun s =>
          (s.2.af.committed, s.1.view host s.2.af.target_path))
      = some (false, some (some [1])) := by decide
  rw [hop, Option.bind_some] at hrun
  obtain ⟨s, hs, hout⟩ := Option.map_eq_some_iff.mp hrun
  obtain ⟨hcom, hview⟩ := Prod.mk.inj hout
  have hold : Disk.looped.view host (serving.fspath ["a"]) = none := by decide
  have hprom := (hall host digests serving .looped d₁ ["a"] (putting none) unhindered af
    (atomic_of_eq_some hop) (by decide) s (reach_of_exec hs)).reads
  rw [hview, hcom, hold] at hprom
  cases hprom

/-! ## What `flush` answers -/

/-- **`Ok` from `flush`**, after writes that all succeeded, means the upload is
in place exactly when its length was not announced, or announced right, or
`flush` had something else to fail on: the checksum, the `fsync`. -/
theorem flush_truthful (k : Kernel) (c : Crates) (fs : AutoMkcolFs) (d d₁ : Disk)
    (path : List String) (options : OpenOptions) (fault : OpenFault) (af : AtomicFile)
    (hopen : fs.open_ k d path options fault = (d₁, .ok (.atomic af))) {d₂ : Disk} {u : Upload}
    (h : Reach (Upload.run k c) (fun _ a => ∃ call, a = .write call) (d₁, Upload.start d₁ af)
      (d₂, u))
    (hw : u.stage = .writing) (f : AtomicFile.CommitFault) :
    ((u.af.flush k c d₂ f).2.2 = .ok () →
        (u.af.flush k c d₂ f).1.committed = true ∧
          (u.af.flush k c d₂ f).2.1.view k (fs.fspath path) = some (some u.sent))
      ↔ options.size = none ∨ options.size = some u.sent.length ∨
        (∃ sum, options.checksum.bind (parse_sha256_checksum c) = some sum ∧
          sum ≠ c.sha256 u.sent) ∨
        (fs.fsync = true ∧ f.sync ≠ none) := by
  obtain ⟨dm, o, hens, hop, htarget, hsize, hck, hfsync⟩ := AutoMkcolFs.open_spec hopen
  have hheld₀ := Upload.held_start hop
  have hinv : Upload.Alone k c d₁ o (Upload.start d₁ af) (d₂, u) ∧
      u.af.expected_size = af.expected_size ∧ u.af.expected_checksum = af.expected_checksum ∧
      u.af.fsync = af.fsync := by
    refine h.inv (I := fun s => Upload.Alone k c d₁ o (Upload.start d₁ af) s ∧
      s.2.af.expected_size = af.expected_size ∧ s.2.af.expected_checksum = af.expected_checksum ∧
      s.2.af.fsync = af.fsync) ⟨Upload.alone_start hop, rfl, rfl, rfl⟩ ?_
    rintro ⟨d, u⟩ a ⟨d', u'⟩ ⟨ha, hs, hc, hf⟩ ⟨call, rfl⟩ hst
    obtain ⟨-, -, -, -, hs', hc'⟩ := Upload.step_keeps (show u.step k c d _ = some (d', u') from hst)
    refine ⟨Upload.alone_step hheld₀ rfl ha hst, hs'.trans hs, hc'.trans hc, ?_⟩
    cases Upload.step_cases (show u.step k c d _ = some (d', u') from hst) with
    | wrote call hw =>
        obtain ⟨-, g, hg, -, hend⟩ := ha.books.taking hw
        obtain ⟨-, -, -, -, hsame, -⟩ := AtomicFile.write_spec hg hend call
        exact hsame.fsync.trans hf
    | committed _ fault st hact hs hst => rcases hact with hact | hact <;> cases hact
  obtain ⟨halone, hs, hc, hf⟩ := hinv
  have hbooks := halone.books
  obtain ⟨hnc, g, hg, -, -⟩ := hbooks.taking hw
  obtain ⟨-, hhash, hlen⟩ := hbooks.counted (.inl hw)
  dsimp only at hnc hg hhash hlen
  have hheld : Upload.Held k o d₂ u := halone.held hheld₀ ⟨hnc, by rw [hw]; decide⟩
  have hut : u.af.target_path = fs.fspath path := halone.target.trans htarget
  have hus : u.af.expected_size = options.size := hs.trans hsize
  have huc : u.af.expected_checksum = options.checksum := hc.trans hck
  have huf : u.af.fsync = fs.fsync := hf.trans hfsync
  have hmis : u.af.checksum_mismatch c = true ↔
      ∃ sum, options.checksum.bind (parse_sha256_checksum c) = some sum ∧
        sum ≠ c.sha256 u.sent := by
    simp only [AtomicFile.checksum_mismatch, huc, hhash]
    split
    · rename_i hnone
      simp [hnone]
    · rename_i sum hsum
      simp [hsum]
  have hcommit : u.af.should_commit = true ↔
      options.size = none ∨ options.size = some u.sent.length := by
    simp only [AtomicFile.should_commit, hus]
    split
    · rename_i hnone
      simp [hnone]
    · rename_i n hn
      simp [hn, hlen, eq_comm]
  have hsync : (if u.af.fsync && u.af.file.isSome then f.sync else none) = none ↔
      ¬ (fs.fsync = true ∧ f.sync ≠ none) := by
    simp only [huf, hg, Option.isSome_some, Bool.and_true, ne_eq, not_and, not_not]
    split <;> simp_all
  rw [AtomicFile.flush]
  have hcase := AtomicFile.commit_cases k c u.af d₂ f
  revert hcase
  generalize u.af.commit k c d₂ f = r
  intro hcase
  cases hcase with
  | again hcom => exact absurd hcom (by simp [hnc])
  | mismatch hcom hm =>
      exact ⟨fun _ => .inr (.inr (.inl (hmis.mp hm))), fun _ hok => by cases hok⟩
  | unsynced hcom hm e hse =>
      refine ⟨fun _ => .inr (.inr (.inr ?_)), fun _ hok => by cases hok⟩
      by_contra hno
      rw [hsync.mpr hno] at hse
      cases hse
  | incomplete hcom hm hse hno =>
      -- the answer is `Ok` and the temp file will be dropped
      have hcond : ¬ (options.size = none ∨ options.size = some u.sent.length) := fun hyes => by
        rw [hcommit.mpr hyes] at hno
        cases hno
      refine ⟨fun himp => ?_, ?_⟩
      · have hfalse : (false : Bool) = true := hcom.symm.trans (himp rfl).1
        cases hfalse
      · rintro (h1 | h1 | h1 | h1)
        · exact absurd (.inl h1) hcond
        · exact absurd (.inr h1) hcond
        · rw [hmis.mpr h1] at hm
          cases hm
        · exact absurd h1 (hsync.mp hse)
  | unrenamed hcom hm hse hyes e hr =>
      refine ⟨fun _ => ?_, fun _ hok => by cases hok⟩
      exact (hcommit.mp hyes).elim .inl fun h1 => .inr (.inl h1)
  | renamed hcom hm hse hyes d' hr =>
      refine ⟨fun _ => (hcommit.mp hyes).elim .inl fun h1 => .inr (.inl h1), fun _ _ => ⟨rfl, ?_⟩⟩
      obtain ⟨m, -, -, -, -, hget, -, -, hland⟩ := hheld.rename hr
      obtain ⟨htree, -, hcont, -⟩ := AtomicFile.set_xattr_sha256_spec k d' u.af.target_path
        (c.hex_encode (c.sha256 u.af.hasher))
      obtain ⟨hcontent, -⟩ := hbooks.counted (.inl hw)
      obtain ⟨-, -, hino, -⟩ := Disk.rename_ok hr
      rw [← hut, Disk.view_eq_file (i := u.ino) (by rw [htree]; exact hland)
        (by rw [htree, hget, if_pos rfl]), hcont, hino]
      exact congrArg (some ∘ some) hcontent

/-- Three bytes announced, two sent: an answer of `Ok` and no file. -/
theorem flush_ok_without_file : ¬ ∀ (k : Kernel) (c : Crates) (fs : AutoMkcolFs) (d d₁ : Disk)
    (path : List String) (options : OpenOptions) (fault : OpenFault) (af : AtomicFile),
    fs.open_ k d path options fault = (d₁, .ok (.atomic af)) →
    ∀ d₂ u, Reach (Upload.run k c) (fun _ a => ∃ call, a = .write call) (d₁, Upload.start d₁ af)
      (d₂, u) → u.stage = .writing → ∀ f, (u.af.flush k c d₂ f).2.2 = .ok () →
        (u.af.flush k c d₂ f).2.1.view k (fs.fspath path) = some (some u.sent) := by
  intro hall
  have hopen : (atomic_of (serving.open_ host .blank ["a"] (putting (some 3)) unhindered)).isSome
      = true := by decide
  obtain ⟨⟨d₁, af⟩, hop⟩ := Option.isSome_iff_exists.mp hopen
  have hrun : ((atomic_of (serving.open_ host .blank ["a"] (putting (some 3)) unhindered)).bind
      fun x => (Upload.run host digests (x.1, Upload.start x.1 x.2)
        (.write (.bytes [1, 2] none))).map fun s =>
          (s.2.stage, s.2.sent, decide ((s.2.af.flush host digests s.1 ⟨none, none⟩).2.2 = .ok ()),
            (s.2.af.flush host digests s.1 ⟨none, none⟩).2.1.view host (serving.fspath ["a"])))
      = some (.writing, [1, 2], true, none) := by decide
  rw [hop, Option.bind_some] at hrun
  obtain ⟨⟨d₂, u⟩, hs, hout⟩ := Option.map_eq_some_iff.mp hrun
  simp only [Prod.mk.injEq, decide_eq_true_eq] at hout
  obtain ⟨hstage, -, hok, hview⟩ := hout
  have := hall host digests serving .blank d₁ ["a"] (putting (some 3)) unhindered af
    (atomic_of_eq_some hop) d₂ u (Reach.start.next ⟨_, rfl⟩ hs) hstage ⟨none, none⟩ hok
  rw [hview] at this
  cases this

/-- The same upload, announced right. -/
theorem flush_truthful_two_bytes : ∃ (d₁ : Disk) (af : AtomicFile) (d₂ : Disk) (u : Upload),
    serving.open_ host .blank ["a"] (putting (some 2)) unhindered = (d₁, .ok (.atomic af)) ∧
      u.sent = [1, 2] ∧ ((u.af.flush host digests d₂ ⟨none, none⟩).2.2 = .ok () →
        (u.af.flush host digests d₂ ⟨none, none⟩).1.committed = true ∧
          (u.af.flush host digests d₂ ⟨none, none⟩).2.1.view host (serving.fspath ["a"])
            = some (some u.sent)) := by
  have hopen : (atomic_of (serving.open_ host .blank ["a"] (putting (some 2)) unhindered)).isSome
      = true := by decide
  obtain ⟨⟨d₁, af⟩, hop⟩ := Option.isSome_iff_exists.mp hopen
  have hrun : ((atomic_of (serving.open_ host .blank ["a"] (putting (some 2)) unhindered)).bind
      fun x => (Upload.run host digests (x.1, Upload.start x.1 x.2)
        (.write (.bytes [1, 2] none))).map fun s => (s.2.stage, s.2.sent))
      = some (.writing, [1, 2]) := by decide
  rw [hop, Option.bind_some] at hrun
  obtain ⟨⟨d₂, u⟩, hs, hout⟩ := Option.map_eq_some_iff.mp hrun
  obtain ⟨hstage, hsent⟩ := Prod.mk.inj hout
  refine ⟨d₁, af, d₂, u, atomic_of_eq_some hop, hsent, ?_⟩
  exact (flush_truthful host digests serving .blank d₁ ["a"] (putting (some 2)) unhindered af
    (atomic_of_eq_some hop) (Reach.start.next ⟨_, rfl⟩ hs) hstage ⟨none, none⟩).mpr
      (.inr (.inl (by rw [hsent]; rfl)))

end WebDavs.AutoFs
