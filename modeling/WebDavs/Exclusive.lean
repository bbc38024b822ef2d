/-
Uploads that may not replace anything.

An upload opened with `create_new` (`If-None-Match: *`) is refused when its
target exists. That is looked up in `open`; the rename that publishes it comes
with `commit`, as late as the client likes, and looks at nothing. Here any number
of uploads of one target run side by side, and files that `LocalFs` opens there
in place. What the target's entry is at a commit is a question of what came
before: as long as nobody has committed, or made a file there in place, it is what
it was when the exclusive upload was opened, and once somebody has, it is a file
(`create_new_exclusive`).
-/
import WebDavs.Site

set_option autoImplicit false

namespace WebDavs.AutoFs

open WebDavs.Posix WebDavs.Posix.FileTree WebDavs.Steps

/-! ## The contest -/

/-- The server, which of its uploads were opened with `create_new`, and whether an `open`
that was left to `LocalFs` has made the entry of the target. -/
structure Contest where
  site : Site
  exclusive : List Bool
  made : Bool

namespace Contest

/-- How an upload was opened that is there now. -/
def noted (s : Contest) (s' : Site) : Site.Event → List Bool
  | .open_ _ options _ _ =>
    if s'.server.uploads.length = s.site.server.uploads.length then s.exclusive
    else s.exclusive ++ [options.create_new]
  | _ => s.exclusive

/-- `LocalFs` has opened one file more, and the entry of the target is a new file. -/
def makes (k : Kernel) (fs : AutoMkcolFs) (s : Contest) (s' : Site) : Site.Event → Bool
  | .open_ path _ _ _ =>
    decide (s.site.inners.length < s'.inners.length) &&
      match k.slot s'.server.disk.tree (fs.fspath path) with
      | some (d, n) =>
        match s'.server.disk.tree.get (d ++ [n]) with
        | some (.file i) => decide (s.site.server.disk.next ≤ i)
        | _ => false
      | none => false
  | _ => false

/-- One step of the server, and what is written down of it. -/
def step (k : Kernel) (c : Crates) (fs : AutoMkcolFs) (s : Contest) (e : Site.Event) :
    Option Contest :=
  (s.site.step k c fs e).map fun s' => ⟨s', s.noted s' e, s.made || s.makes k fs s' e⟩

theorem noted_opened (s : Contest) (d : Disk) (u : Upload) (is : List Nat) (p : List String)
    (options : OpenOptions) (fault : OpenFault) (inner : Option Errno) :
    s.noted ⟨⟨d, s.site.server.uploads ++ [u]⟩, is⟩ (.open_ p options fault inner) =
      s.exclusive ++ [options.create_new] := by
  simp [noted]

theorem noted_same (s : Contest) (d : Disk) (is : List Nat) (e : Site.Event) :
    s.noted ⟨⟨d, s.site.server.uploads⟩, is⟩ e = s.exclusive := by
  cases e <;> simp [noted]

theorem makes_same (k : Kernel) (fs : AutoMkcolFs) (s : Contest) (sv : Server) (e : Site.Event) :
    s.makes k fs { s.site with server := sv } e = false := by
  cases e <;> simp [makes]

/-- Every `open` is one of the same target. -/
def Of (path : List String) (_ : Contest) (e : Site.Event) : Prop :=
  ∀ p options fault inner, e = .open_ p options fault inner → p = path

/-- The upload `i` was opened with `create_new`. -/
def Exclusive (s : Contest) (i : Nat) : Prop := s.exclusive[i]? = some true

/-- No other upload has committed, and nobody has made the target in place. -/
def Unrivaled (s : Contest) (i : Nat) : Prop :=
  s.made = false ∧
    ∀ j v, j ≠ i → s.site.server.uploads[j]? = some v → v.af.committed = false

/-- The step commits the upload `i`. -/
def Commits (s s' : Contest) (i : Nat) : Prop :=
  ∃ u u', s.site.server.uploads[i]? = some u ∧ s'.site.server.uploads[i]? = some u' ∧
    u.af.committed = false ∧ u'.af.committed = true

end Contest

/-! ## The entry at the target -/

theorem lstat_of_slot {k : Kernel} {t : FileTree Nat} {p : Path} {d : Loc} {m : String}
    (h : k.slot t p = some (d, m)) : k.lstat t p = t.get (d ++ [m]) := by
  obtain ⟨q, rfl, -, -⟩ := Kernel.slot_spec h
  rw [Kernel.lstat_child, h, Option.bind_some]

theorem file_name_of_slot {k : Kernel} {t : FileTree Nat} {p : Path} {d : Loc} {m : String}
    (h : k.slot t p = some (d, m)) : p.file_name = some m := by
  obtain ⟨q, rfl, -, -⟩ := Kernel.slot_spec h
  exact Path.file_name_child q m

/-- The slot of `p` stays where it is, and holds a file if and only if it
did. -/
def SameSlot (k : Kernel) (p : Path) (t t' : FileTree Nat) : Prop :=
  ∀ d m, k.slot t p = some (d, m) → k.slot t' p = some (d, m) ∧
    ∀ i, t'.get (d ++ [m]) = some (.file i) ↔ t.get (d ++ [m]) = some (.file i)

theorem SameSlot.refl (k : Kernel) (p : Path) (t : FileTree Nat) : SameSlot k p t t :=
  fun _ _ h => ⟨h, fun _ => Iff.rfl⟩

theorem SameSlot.trans {k : Kernel} {p : Path} {t u v : FileTree Nat} (h : SameSlot k p t u)
    (h' : SameSlot k p u v) : SameSlot k p t v := by
  intro d m hs
  obtain ⟨hu, hg⟩ := h d m hs
  obtain ⟨hv, hg'⟩ := h' d m hu
  exact ⟨hv, fun i => (hg' i).trans (hg i)⟩

/-- The entry `p` itself is a file. -/
def FileAt (k : Kernel) (t : FileTree Nat) (p : Path) : Prop :=
  ∃ d m i, k.slot t p = some (d, m) ∧ t.get (d ++ [m]) = some (.file i)

theorem SameSlot.fileAt {k : Kernel} {p : Path} {t t' : FileTree Nat} (h : SameSlot k p t t')
    (hf : FileAt k t p) : FileAt k t' p := by
  obtain ⟨d, m, i, hs, hg⟩ := hf
  obtain ⟨hs', hiff⟩ := h d m hs
  exact ⟨d, m, i, hs', (hiff i).mpr hg⟩

theorem SameSlot.fileAt_iff {k : Kernel} {p : Path} {t t' : FileTree Nat} (h : SameSlot k p t t')
    (hs : ∀ m, p.file_name = some m → ∃ d, k.slot t p = some (d, m)) :
    FileAt k t' p ↔ FileAt k t p := by
  constructor
  · rintro ⟨d', m, i, hs', hg⟩
    obtain ⟨d, hd⟩ := hs m (file_name_of_slot hs')
    obtain ⟨hd', hiff⟩ := h d m hd
    obtain rfl : d = d' := congrArg Prod.fst (Option.some.inj (hd'.symm.trans hs'))
    exact ⟨d, m, i, hd, (hiff i).mp hg⟩
  · exact h.fileAt

theorem FileAt.slot {k : Kernel} {p : Path} {t : FileTree Nat} (h : FileAt k t p) (m : String)
    (hm : p.file_name = some m) : ∃ d, k.slot t p = some (d, m) := by
  obtain ⟨d, n, i, hs, -⟩ := h
  obtain rfl : n = m := Option.some.inj ((file_name_of_slot hs).symm.trans hm)
  exact ⟨d, hs⟩

theorem not_fileAt_of_absent {k : Kernel} {t : FileTree Nat} {p : Path}
    (h : k.exists_ t p = false) : ¬ FileAt k t p := by
  rintro ⟨d, m, i, hs, hg⟩
  obtain ⟨q, rfl, hq, -⟩ := Kernel.slot_spec hs
  have hst := Kernel.stat_child_of_get hq hg (by simp)
  rw [Kernel.exists_, hst] at h
  cases h

theorem sameSlot_of_grows {k : Kernel} {p : Path} {t t' : FileTree Nat} (h : Grows t t') :
    SameSlot k p t t' :=
  fun _ _ hs => ⟨Kernel.slot_extends h.extends hs, fun _ => h.file_iff⟩

/-- A new file elsewhere leaves it alone too. -/
theorem sameSlot_of_gains {k : Kernel} {p : Path} {d d' : Disk} {x : Loc} (h : Gains d d' x)
    (hx : ∀ D m, k.slot d.tree p = some (D, m) → D ++ [m] ≠ x) : SameSlot k p d.tree d'.tree := by
  intro D m hs
  refine ⟨Kernel.slot_extends h.leaves.extends_ hs, fun i => ?_⟩
  rw [h.get, if_neg (hx D m hs)]

/-- A new temp file is one. -/
theorem sameSlot_of_opening {k : Kernel} {dm d : Disk} {o : Spot} {af : AtomicFile}
    (h : Opening k dm d o af) : SameSlot k af.target_path dm.tree d.tree := by
  refine sameSlot_of_gains ⟨h.free, h.get, h.inode, h.next⟩ fun D m hs he => ?_
  have hn := List.append_inj_right' he rfl
  exact (h.target m (file_name_of_slot hs)).2 (List.singleton_inj.mp hn).symm

/-- Taking a temp file away leaves the slot of the target alone. -/
theorem sameSlot_of_removed {k : Kernel} {t t' : FileTree Nat} {o : Spot} {p : Path} {i : Nat}
    (htarget : ∀ m, p.file_name = some m → o.temp_name ≠ m)
    (hfile : t.get o.loc = some (.file i))
    (hget : ∀ x, t'.get x = if x = o.loc then none else t.get x) : SameSlot k p t t' := by
  intro D m hs
  have hkeep : KeepsDirs k.links t t' := by
    refine Kernel.keepsDirs_of_leaf (d := o.base) (n := o.temp_name) ?_ (linkAt_of_file hfile) ?_
    · have hf : t.get (o.base ++ [o.temp_name]) = some (.file i) := hfile
      rw [hf]
      simp
    · intro l hl
      have hl' : l ≠ o.loc := hl
      rw [hget, if_neg hl']
  refine ⟨Kernel.slot_keepsDirs hkeep hs, fun j => ?_⟩
  have hloc : D ++ [m] ≠ o.loc := by
    intro he
    have hn := List.append_inj_right' he rfl
    exact htarget m (file_name_of_slot hs) (List.singleton_inj.mp hn).symm
  rw [hget, if_neg hloc]

/-! ## What a step does to it -/

namespace Upload

/-- A commit finds the slot of its target and puts its own file there. -/
theorem slot_of_commit {k : Kernel} {c : Crates} {d d' : Disk} {u u' : Upload} {a : Act}
    (hh : u.Live → ∃ o, Held k o d u) (hs : u.step k c d a = some (d', u'))
    (hc : u.af.committed = false) (hc' : u'.af.committed = true) :
    ∃ D m, k.slot d.tree u.af.target_path = some (D, m) ∧
      k.slot d'.tree u.af.target_path = some (D, m) ∧
        d'.tree.get (D ++ [m]) = some (.file u.ino) := by
  cases step_cases hs with
  | wrote call hw =>
    have hsame : (u.af.write d call).1.committed = true := hc'
    rw [write_committed, hc] at hsame
    cases hsame
  | committed _ fault st ha hst hst' =>
    have hdw : u.stage ≠ .dropped := by rcases hst with hst | hst <;> rw [hst] <;> decide
    rcases AtomicFile.commit_committed hc' with ⟨hcom, -⟩ | ⟨d₂, -, -, -, hr, heq⟩
    · rw [hc] at hcom
      cases hcom
    · obtain ⟨o, hheld⟩ := hh ⟨hc, hdw⟩
      obtain ⟨m, hm, -, hslot, -, hget, hst₂, hdir₂, -⟩ := hheld.rename hr
      -- recording the digest is no change of the tree
      obtain ⟨htree, -, -, -⟩ := AtomicFile.set_xattr_sha256_spec k d₂ u.af.target_path
        (c.hex_encode (c.sha256 u.af.hasher))
      rw [heq]
      refine ⟨o.base, m, hslot, ?_, ?_⟩
      · rw [htree, hm]
        exact Kernel.slot_child_eq_some.mpr ⟨hst₂, hdir₂, rfl⟩
      · rw [htree, hget, if_pos rfl]
  | dropped hst =>
    rw [hc] at hc'
    cases hc'

/-- A step that does not commit leaves the slot of the target alone. -/
theorem sameSlot_of_step {k : Kernel} {c : Crates} {d d' : Disk} {u u' : Upload} {a : Act}
    (hg : u.Grips) (hh : u.Live → ∃ o, Held k o d u) (hs : u.step k c d a = some (d', u'))
    (hc : u'.af.committed = true → u.af.committed = true) :
    SameSlot k u.af.target_path d.tree d'.tree := by
  obtain ⟨heff, -, -, -⟩ := step_effect hg hh hs
  cases heff with
  | quiet htree hlive hcom =>
    rw [htree]
    exact SameSlot.refl _ _ _
  | renamed o m hlive hheld hcom hslot hnd hget hlands =>
    have hyes := hc hcom
    rw [hlive.1] at hyes
    cases hyes
  | removed o hlive hheld hgone hcom hget =>
    refine sameSlot_of_removed (fun m hm => (hheld.target m hm).2) ((hheld.only _).mpr rfl) hget

end Upload

/-! ## The invariant -/

/-- An exclusive `open` has found nothing at its target. -/
theorem open_absent {k : Kernel} {fs : AutoMkcolFs} {d d' : Disk} {path : List String}
    {options : OpenOptions} {fault : OpenFault} {af : AtomicFile}
    (h : fs.open_ k d path options fault = (d', .ok (.atomic af)))
    (hx : options.create_new = true) {dm : Disk}
    (hens : fs.ensure_parent k d path fault.parent = (dm, none)) :
    k.exists_ dm.tree (fs.fspath path) = false := by
  unfold AutoMkcolFs.open_ at h
  dsimp only at h
  split at h
  · cases h
  · rename_i d₁ hif
    by_cases hflags : (fs.atomic_writes && options.write && options.create && options.truncate) = true
    · rw [if_pos hflags] at h
      simp only [Bool.and_eq_true] at hflags
      rw [if_pos (by simp [hflags]), hens] at hif
      cases hif
      unfold AutoMkcolFs.open_atomic at h
      dsimp only at h
      by_cases hex : (options.create_new && k.exists_ dm.tree (fs.fspath path)) = true
      · rw [if_pos hex] at h
        cases h
      · rw [hx, Bool.true_and, Bool.not_eq_true] at hex
        exact hex
    · rw [if_neg hflags] at h
      cases h

namespace Contest

/-- Everything is in its place, all uploads have the target `p`, whose slot has stayed
where it is since the first of them, and its entry is a file once an upload has
committed or it has been made in place, and not before if one is exclusive. -/
structure Standing (k : Kernel) (p : Path) (s : Contest) : Prop where
  placed : Placed k s.site.server
  length : s.exclusive.length = s.site.server.uploads.length
  target : ∀ (i : Nat) u, s.site.server.uploads[i]? = some u → u.af.target_path = p
  slot : s.site.server.uploads ≠ [] → ∀ m, p.file_name = some m →
    ∃ d, k.slot s.site.server.disk.tree p = some (d, m)
  made : s.made = true → FileAt k s.site.server.disk.tree p
  taken : ∀ (i : Nat) u, s.site.server.uploads[i]? = some u → u.af.committed = true →
    FileAt k s.site.server.disk.tree p
  free : s.made = false →
    (∀ (i : Nat) u, s.site.server.uploads[i]? = some u → u.af.committed = false) →
      ∀ i, s.Exclusive i → ¬ FileAt k s.site.server.disk.tree p

variable {k : Kernel} {c : Crates} {fs : AutoMkcolFs} {p : Path} {s : Contest}

theorem standing_start (k : Kernel) (p : Path) (d : Disk) :
    Standing k p ⟨⟨⟨d, []⟩, []⟩, [], false⟩ where
  placed := Server.placed_start k d
  length := rfl
  target i u h := by simp at h
  slot h := absurd rfl h
  made h := by cases h
  taken i u h := by simp at h
  free _ _ i h := by simp [Exclusive] at h

theorem Standing.uploads_ne (h : Standing k p s) {i : Nat} (hi : s.Exclusive i) :
    s.site.server.uploads ≠ [] := by
  intro he
  have hlt := (List.getElem?_eq_some_iff.mp hi).1
  rw [h.length, he] at hlt
  exact absurd hlt (Nat.not_lt_zero i)

/-- No temp file is in the way of a commit: it bears another name. -/
theorem Standing.apart (h : Standing k p s) (i : Nat) (a : Act) :
    Apart k c s.site.server (.act i a) := by
  intro i u f _ hu _ d n hslot j v _ hv hvl hget
  obtain ⟨o, ho⟩ := h.placed.held j v hv hvl
  have hloc : d ++ [n] = o.base ++ [o.temp_name] := (ho.only _).mp hget
  have hn : n = o.temp_name := List.singleton_inj.mp (List.append_inj_right' hloc rfl)
  have hfn : v.af.target_path.file_name = some n := by
    rw [h.target j v hv, ← h.target i u hu]
    exact file_name_of_slot hslot
  exact (ho.target n hfn).2 hn.symm

/-- The uploads stay as they are. It is enough that the slot of the target does, or that
its entry is a file now and it is written down that it has been made. -/
theorem Standing.still (h : Standing k p s) {d : Disk} {is : List Nat} {b : Bool}
    (hplaced : Placed k ⟨d, s.site.server.uploads⟩)
    (hsame : b = false → SameSlot k p s.site.server.disk.tree d.tree)
    (hmade : b = true → FileAt k d.tree p) :
    Standing k p ⟨⟨⟨d, s.site.server.uploads⟩, is⟩, s.exclusive, s.made || b⟩ where
  placed := hplaced
  length := h.length
  target := h.target
  slot hne m hm := by
    cases b with
    | false =>
      obtain ⟨D, hD⟩ := h.slot hne m hm
      exact ⟨D, (hsame rfl D m hD).1⟩
    | true => exact (hmade rfl).slot m hm
  made hb := by
    cases b with
    | false => exact (hsame rfl).fileAt (h.made (by rwa [Bool.or_false] at hb))
    | true => exact hmade rfl
  taken i u hu hc := by
    cases b with
    | false => exact (hsame rfl).fileAt (h.taken i u hu hc)
    | true => exact hmade rfl
  free hb hall i hi hf := by
    obtain ⟨hno, rfl⟩ := Bool.or_eq_false_iff.mp hb
    exact h.free hno hall i hi (((hsame rfl).fileAt_iff (h.slot (h.uploads_ne hi))).mp hf)

theorem fileAt_of_makes {s' : Site} {path : List String} {options : OpenOptions}
    {fault : OpenFault} {inner : Option Errno}
    (h : s.makes k fs s' (.open_ path options fault inner) = true) :
    FileAt k s'.server.disk.tree (fs.fspath path) := by
  unfold makes at h
  dsimp only at h
  obtain ⟨-, h⟩ := Bool.and_eq_true_iff.mp h
  split at h
  · rename_i d n hs
    split at h
    · rename_i i hg
      exact ⟨d, n, i, hs, hg⟩
    · cases h
  · cases h

/-- Where one more file is open and the entry of the target is new, that is noticed. -/
theorem makes_of_gains {d : Disk} {uploads : List Upload} {ino : Nat} {path : List String}
    {options : OpenOptions} {fault : OpenFault} {inner : Option Errno} {D : Loc} {m : String}
    {i : Nat} (hs : k.slot d.tree (fs.fspath path) = some (D, m))
    (hg : d.tree.get (D ++ [m]) = some (.file i)) (hi : s.site.server.disk.next ≤ i) :
    s.makes k fs ⟨⟨d, uploads⟩, s.site.inners ++ [ino]⟩ (.open_ path options fault inner) = true := by
  simp [makes, hs, hg, hi]

/-- A new upload joins. -/
theorem Standing.opened {path : List String} (h : Standing k (fs.fspath path) s)
    {options : OpenOptions} {fault : OpenFault} {d : Disk} {af : AtomicFile}
    (hop : fs.open_ k s.site.server.disk path options fault = (d, .ok (.atomic af))) :
    Standing k (fs.fspath path)
      ⟨⟨⟨d, s.site.server.uploads ++ [Upload.start d af]⟩, s.site.inners⟩,
        s.exclusive ++ [options.create_new], s.made⟩ := by
  obtain ⟨dm, o, hens, hopening, htarget, -, -, -⟩ := AutoMkcolFs.open_spec hop
  have hgrows := AutoMkcolFs.ensure_parent_grows k fs s.site.server.disk path fault.parent
  rw [hens] at hgrows
  -- neither the directories made on the way nor the temp file touch the slot of the target
  have hsame : SameSlot k (fs.fspath path) dm.tree d.tree := htarget ▸ sameSlot_of_opening hopening
  have hsame₀ : SameSlot k (fs.fspath path) s.site.server.disk.tree d.tree :=
    (sameSlot_of_grows hgrows.1).trans hsame
  have hslot : ∀ m, (fs.fspath path).file_name = some m →
      k.slot dm.tree (fs.fspath path) = some (o.base, m) := by
    intro m hm
    rw [← htarget] at hm ⊢
    rw [(hopening.target m hm).1]
    exact Kernel.slot_child_eq_some.mpr ⟨hopening.stat, hopening.dir, rfl⟩
  have hnew : (Upload.start d af).af.committed = false := hopening.committed
  refine ⟨Server.placed_add (Server.placed_left h.placed (leaves_of_grows hgrows)) hopening,
    ?_, ?_, ?_, fun hm => hsame₀.fileAt (h.made hm), ?_, ?_⟩
  · simp only [List.length_append, List.length_singleton, h.length]
  · intro i u hu
    rcases append_cases hu with ⟨-, rfl⟩ | hu
    · exact htarget
    · exact h.target i u hu
  · intro _ m hm
    exact ⟨o.base, (hsame _ m (hslot m hm)).1⟩
  · intro i u hu hc
    rcases append_cases hu with ⟨-, rfl⟩ | hu
    · rw [hnew] at hc
      cases hc
    · exact hsame₀.fileAt (h.taken i u hu hc)
  · intro hm hall i hi hf
    have hold : ∀ (j : Nat) v, s.site.server.uploads[j]? = some v → v.af.committed = false := by
      intro j v hv
      have hlt := (List.getElem?_eq_some_iff.mp hv).1
      exact hall j v (by rw [List.getElem?_append_left hlt]; exact hv)
    have hf' : FileAt k dm.tree (fs.fspath path) :=
      (hsame.fileAt_iff fun m hm => ⟨o.base, hslot m hm⟩).mp hf
    rcases append_cases hi with ⟨-, hx⟩ | hi
    -- the newcomer, when exclusive, has looked: the target was not there
    · exact not_fileAt_of_absent (open_absent hop hx.symm hens) hf'
    · have hslot₀ := h.slot (h.uploads_ne hi)
      exact h.free hm hold i hi ((hsame₀.fileAt_iff hslot₀).mp hf)

/-- `LocalFs` opens a file. -/
theorem Standing.inside {path : List String} (h : Standing k (fs.fspath path) s)
    {options : OpenOptions} {fault : OpenFault} {inner : Option Errno} {dm d : Disk} {ino : Nat}
    (hop : fs.open_ k s.site.server.disk path options fault = (dm, .ok .inner))
    (hin : dm.open_local k (fs.fspath path) options inner = .ok (d, ino)) :
    Standing k (fs.fspath path)
      ⟨⟨⟨d, s.site.server.uploads⟩, s.site.inners ++ [ino]⟩, s.exclusive,
        s.made || s.makes k fs ⟨⟨d, s.site.server.uploads⟩, s.site.inners ++ [ino]⟩
          (.open_ path options fault inner)⟩ := by
  obtain ⟨hgrows, hinode, hnext⟩ := AutoMkcolFs.open_inner hop
  have hplaced := Server.placed_left h.placed (leaves_of_grows ⟨hgrows, hinode, hnext⟩)
  have hsame := sameSlot_of_grows (k := k) (p := fs.fspath path) hgrows
  rcases Site.open_local_cases hin with ⟨x, hx⟩ | rfl | ⟨-, -, -, -, rfl⟩
  · have hgained := Server.placed_left hplaced hx.leaves
    refine h.still hgained (fun hb => ?_) fileAt_of_makes
    -- a new file at the target would have been noticed
    refine hsame.trans (sameSlot_of_gains hx fun D m hs he => ?_)
    rw [makes_of_gains (Kernel.slot_extends hx.leaves.extends_ hs)
      (by rw [hx.get, if_pos he]) (Nat.le_of_eq hnext.symm)] at hb
    cases hb
  · exact h.still hplaced (fun _ => hsame) fileAt_of_makes
  · have hemptied := Server.placed_same (d := dm.truncate ino) hplaced rfl rfl
    exact h.still hemptied (fun _ => hsame) fileAt_of_makes

/-- One upload takes a step. -/
theorem Standing.acted (h : Standing k p s) {i : Nat} {a : Act} {u u' : Upload} {d : Disk}
    (hu : s.site.server.uploads[i]? = some u)
    (hs : u.step k c s.site.server.disk a = some (d, u')) :
    Standing k p ⟨⟨⟨d, s.site.server.uploads.set i u'⟩, s.site.inners⟩, s.exclusive, s.made⟩ := by
  have hplaced := (Server.placed_act h.placed (h.apart i a) hu hs).1
  have hne : s.site.server.uploads ≠ [] := List.ne_nil_of_mem (List.mem_of_getElem? hu)
  have hp := h.target i u hu
  have hlt := (List.getElem?_eq_some_iff.mp hu).1
  have htarget : ∀ (j : Nat) v, (s.site.server.uploads.set i u')[j]? = some v →
      v.af.target_path = p := by
    intro j v hv
    rcases set_cases hv with ⟨-, rfl⟩ | ⟨-, hv⟩
    · rw [(Upload.step_keeps hs).2.2.2.1, hp]
    · exact h.target j v hv
  by_cases hcom : u.af.committed = false ∧ u'.af.committed = true
  · -- a commit
    obtain ⟨D, m, hslot, hslot', hget⟩ :=
      Upload.slot_of_commit (h.placed.held i u hu) hs hcom.1 hcom.2
    rw [hp] at hslot hslot'
    have hfile : FileAt k d.tree p := ⟨D, m, u.ino, hslot', hget⟩
    refine ⟨hplaced, by rw [List.length_set]; exact h.length, htarget, fun _ => hfile.slot,
      fun _ => hfile, fun _ _ _ _ => hfile, ?_⟩
    intro _ hall
    have hno := hall i u' (List.getElem?_set_self hlt)
    rw [hcom.2] at hno
    cases hno
  -- no commit: the slot of the target leads to what it led to
  · have hstays : u'.af.committed = true → u.af.committed = true := by
      intro hc'
      by_contra hc
      exact hcom ⟨Bool.eq_false_iff.mpr hc, hc'⟩
    have hsame : SameSlot k p s.site.server.disk.tree d.tree :=
      hp ▸ Upload.sameSlot_of_step (h.placed.grips i u hu) (h.placed.held i u hu) hs hstays
    refine ⟨hplaced, by rw [List.length_set]; exact h.length, htarget, ?_,
      fun hm => hsame.fileAt (h.made hm), ?_, ?_⟩
    · intro _ m hm
      obtain ⟨D, hD⟩ := h.slot hne m hm
      exact ⟨D, (hsame D m hD).1⟩
    · intro j v hv hc
      refine hsame.fileAt ?_
      rcases set_cases hv with ⟨-, rfl⟩ | ⟨-, hv⟩
      · exact h.taken i u hu (hstays hc)
      · exact h.taken j v hv hc
    · intro hm hall j hj hf
      -- an upload that is not committed now was not before
      refine h.free hm ?_ j hj ((hsame.fileAt_iff (h.slot hne)).mp hf)
      intro l v hv
      by_cases hl : l = i
      · obtain rfl : u = v := Option.some.inj (hu.symm.trans (hl ▸ hv))
        by_contra hc
        have hc' := Upload.committed_stays hs (Bool.not_eq_false _ ▸ hc)
        rw [hall i u' (List.getElem?_set_self hlt)] at hc'
        cases hc'
      · exact hall l v (by rw [List.getElem?_set_ne fun he => hl he.symm]; exact hv)

/-- **One step** keeps the contest standing. An upload that has committed after
it had done so before, or does so in this step, and no upload changes its
nature. -/
theorem Standing.step {path : List String} {s' : Contest} {e : Site.Event}
    (h : Standing k (fs.fspath path) s) (hof : Of path s e) (hs : s.step k c fs e = some s') :
    Standing k (fs.fspath path) s' ∧
      ∀ (j : Nat) v, s'.site.server.uploads[j]? = some v → v.af.committed = true →
        (s'.Exclusive j → s.Exclusive j) ∧ (s.Commits s' j ∨
          ∃ v₀, s.site.server.uploads[j]? = some v₀ ∧ v₀.af.committed = true) := by
  obtain ⟨sv, hsv, rfl⟩ := Option.map_eq_some_iff.mp hs
  cases Site.step_cases hsv with
  | opened p options fault inner d af hop =>
    obtain rfl := hof p options fault inner rfl
    rw [noted_opened, makes_same, Bool.or_false]
    refine ⟨h.opened hop, fun j v hv hc => ?_⟩
    rcases append_cases hv with ⟨-, rfl⟩ | hv
    · obtain ⟨dm, o, -, hopening, -⟩ := AutoMkcolFs.open_spec hop
      have hno : (Upload.start d af).af.committed = false := hopening.committed
      -- the upload that joins has not committed
      rw [hno] at hc
      cases hc
    · refine ⟨fun hx => ?_, Or.inr ⟨v, hv, hc⟩⟩
      rcases append_cases hx with ⟨hj, -⟩ | hx
      · have hlt := (List.getElem?_eq_some_iff.mp hv).1
        rw [hj, h.length] at hlt
        exact absurd hlt (Nat.lt_irrefl _)
      · exact hx
  | idle p options fault inner d hg hi hn =>
    rw [noted_same, makes_same]
    exact ⟨h.still (Server.placed_left h.placed (leaves_of_grows ⟨hg, hi, hn⟩))
      (fun _ => sameSlot_of_grows hg) (fun hb => by cases hb),
      fun j v hv hc => ⟨id, Or.inr ⟨v, hv, hc⟩⟩⟩
  | inside p options fault inner dm d ino hop hw hin =>
    obtain rfl := hof p options fault inner rfl
    rw [noted_same]
    exact ⟨h.inside hop hin, fun j v hv hc => ⟨id, Or.inr ⟨v, hv, hc⟩⟩⟩
  | acted i a u u' d hu hst =>
    have hno : s.makes k fs { s.site with server := ⟨d, s.site.server.uploads.set i u'⟩ } (.act i a) =
        false := rfl
    rw [hno, Bool.or_false]
    refine ⟨h.acted hu hst, fun j v hv hc => ⟨id, ?_⟩⟩
    have hv₀ := hv
    rcases set_cases hv with ⟨rfl, rfl⟩ | ⟨-, hv⟩
    -- the one that acted: it had committed before, or has done so in this step
    · cases hcu : u.af.committed with
      | true => exact Or.inr ⟨u, hu, hcu⟩
      | false => exact Or.inl ⟨u, v, hu, hv₀, hcu, hc⟩
    · exact Or.inr ⟨v, hv, hc⟩
  | wrote i pos bs ino hi =>
    rw [noted_same, makes_same]
    exact ⟨h.still (Server.placed_same h.placed rfl rfl) (fun _ => SameSlot.refl _ _ _)
      (fun hb => by cases hb), fun j v hv hc => ⟨id, Or.inr ⟨v, hv, hc⟩⟩⟩

theorem standing_of_reach {path : List String} {d : Disk}
    (h : Reach (Contest.step k c fs) (Of path) ⟨⟨⟨d, []⟩, []⟩, [], false⟩ s) :
    Standing k (fs.fspath path) s :=
  h.inv (standing_start k _ d) fun _ _ _ hi hc hst => (hi.step hc hst).1

/-- An upload commits in a step of its own. -/
theorem act_of_commits {s' : Contest} {e : Site.Event} {i : Nat} (hs : s.step k c fs e = some s')
    (hi : s.Commits s' i) : ∃ a u u', e = .act i a ∧ s.site.server.uploads[i]? = some u ∧
      u.step k c s.site.server.disk a = some (s'.site.server.disk, u') ∧ u.af.committed = false ∧
        u'.af.committed = true := by
  obtain ⟨u, u', hu, hu', hc, hc'⟩ := hi
  obtain ⟨sv, hsv, rfl⟩ := Option.map_eq_some_iff.mp hs
  obtain ⟨a, he, hst⟩ := Site.act_of_commit hsv hu hu' hc hc'
  exact ⟨a, u, u', he, hu, hst, hc, hc'⟩

/-- Whoever commits finds the slot of the target. -/
theorem slot_of_commits {s' : Contest} {e : Site.Event} {i : Nat} (h : Standing k p s)
    (hs : s.step k c fs e = some s') (hi : s.Commits s' i) :
    ∃ D m, k.slot s.site.server.disk.tree p = some (D, m) := by
  obtain ⟨a, u, u', -, hu, hst, hc, hc'⟩ := act_of_commits hs hi
  obtain ⟨D, m, hslot, -, -⟩ := Upload.slot_of_commit (h.placed.held i u hu) hst hc hc'
  rw [h.target i u hu] at hslot
  exact ⟨D, m, hslot⟩

/-- No exclusive upload commits where it has a rival. -/
def Fair (k : Kernel) (c : Crates) (fs : AutoMkcolFs) (path : List String) (s : Contest)
    (e : Site.Event) : Prop :=
  Of path s e ∧ ∀ s' i, s.step k c fs e = some s' → s.Commits s' i → s.Exclusive i → s.Unrivaled i

/-- No two exclusive uploads have committed. -/
def OneWinner (s : Contest) : Prop :=
  ∀ i j u v, s.Exclusive i → s.Exclusive j → s.site.server.uploads[i]? = some u →
    s.site.server.uploads[j]? = some v → u.af.committed = true → v.af.committed = true → i = j

theorem winners_of_fair {path : List String} {d : Disk}
    (h : Reach (Contest.step k c fs) (Fair k c fs path) ⟨⟨⟨d, []⟩, []⟩, [], false⟩ s) :
    Standing k (fs.fspath path) s ∧ s.OneWinner := by
  have h₀ : Standing k (fs.fspath path) ⟨⟨⟨d, []⟩, []⟩, [], false⟩ ∧
      OneWinner ⟨⟨⟨d, []⟩, []⟩, [], false⟩ := by
    refine ⟨standing_start k _ d, ?_⟩
    intro i j u v _ _ hu
    simp at hu
  refine h.inv (I := fun s => Standing k (fs.fspath path) s ∧ s.OneWinner) h₀ ?_
  · rintro s e s' ⟨hst, hone⟩ ⟨hof, hfair⟩ hs
    obtain ⟨hst', hold⟩ := hst.step hof hs
    refine ⟨hst', ?_⟩
    intro i j u v hi hj hu hv hcu hcv
    obtain ⟨hi₀, hci⟩ := hold i u hu hcu
    obtain ⟨hj₀, hcj⟩ := hold j v hv hcv
    by_contra hij
    -- the one that commits in this step finds the other one committed
    have clash : ∀ i j v₀, i ≠ j → s.Commits s' i → s.Exclusive i →
        s.site.server.uploads[j]? = some v₀ → v₀.af.committed = true → False := by
      intro i j v₀ hne hc hx hv₀ hc₀
      rw [(hfair s' i hs hc hx).2 j v₀ hne.symm hv₀] at hc₀
      cases hc₀
    rcases hci with hci | ⟨u₀, hu₀, hcu₀⟩
    · rcases hcj with hcj | ⟨v₀, hv₀, hcv₀⟩
      · obtain ⟨a, -, -, hei, -⟩ := act_of_commits hs hci
        obtain ⟨b, -, -, hej, -⟩ := act_of_commits hs hcj
        exact hij (Site.Event.act.inj (hei.symm.trans hej)).1
      · exact clash i j v₀ hij hci (hi₀ hi) hv₀ hcv₀
    · rcases hcj with hcj | ⟨v₀, hv₀, hcv₀⟩
      · exact clash j i u₀ (Ne.symm hij) hcj (hj₀ hj) hu₀ hcu₀
      · exact hij (hone i j u₀ v₀ (hi₀ hi) (hj₀ hj) hu₀ hv₀ hcu₀ hcv₀)

end Contest

open Contest

/-- **What an exclusive upload replaces.** Of any number of uploads of one
target, in any order of their steps: when an exclusive one commits, there is no
file at the target if and only if no other has committed and none has been made
there in place. And in a run in which
this is so at each of these commits, at most one exclusive upload succeeds. -/
theorem create_new_exclusive (k : Kernel) (c : Crates) (fs : AutoMkcolFs) (d : Disk)
    (path : List String) {s : Contest}
    (h : Reach (Contest.step k c fs) (Of path) ⟨⟨⟨d, []⟩, []⟩, [], false⟩ s) :
    (∀ e s' i, Of path s e → s.step k c fs e = some s' → s.Commits s' i → s.Exclusive i →
      ((∀ x, k.lstat s.site.server.disk.tree (fs.fspath path) ≠ some (.file x)) ↔ s.Unrivaled i)) ∧
      (Reach (Contest.step k c fs) (Fair k c fs path) ⟨⟨⟨d, []⟩, []⟩, [], false⟩ s →
        s.OneWinner) := by
  have hst := standing_of_reach h
  refine ⟨?_, ?_⟩
  · intro e s' i hof hs hci hx
    obtain ⟨D, m, hslot⟩ := slot_of_commits hst hs hci
    have hfile : (∀ x, k.lstat s.site.server.disk.tree (fs.fspath path) ≠ some (.file x)) ↔
        ¬ FileAt k s.site.server.disk.tree (fs.fspath path) := by
      rw [lstat_of_slot hslot]
      constructor
      · rintro hno ⟨D', m', x, hslot', hg⟩
        obtain ⟨rfl, rfl⟩ := Prod.mk.inj (Option.some.inj (hslot.symm.trans hslot'))
        exact hno x hg
      · intro hno x hg
        exact hno ⟨D, m, x, hslot, hg⟩
    rw [hfile]
    constructor
    · intro hno
      refine ⟨?_, fun j v _ hv => ?_⟩
      · by_contra hm
        exact hno (hst.made (Bool.not_eq_false _ ▸ hm))
      · by_contra hc
        exact hno (hst.taken j v hv (Bool.not_eq_false _ ▸ hc))
    · rintro ⟨hm, hun⟩
      refine hst.free hm ?_ i hx
      intro j v hv
      by_cases hj : j = i
      · obtain ⟨u, -, hu, -, hc, -⟩ := hci
        obtain rfl : u = v := Option.some.inj (hu.symm.trans (hj ▸ hv))
        exact hc
      · exact hun j v hj hv
  · intro hfair
    exact (winners_of_fair hfair).2

/-- A `PUT` with `If-None-Match: *`. -/
def putting_new : OpenOptions := { putting none with create_new := true }

/-- Whether an event goes to `/a`. -/
def to_a (_ : Contest) : Site.Event → Bool
  | .open_ p _ _ _ => p = ["a"]
  | .act _ _ => true
  | .write_in_place _ _ _ => true

theorem of_to_a (s : Contest) (e : Site.Event) (h : to_a s e = true) : Of ["a"] s e := by
  rintro p options fault inner rfl
  exact of_decide_eq_true h

theorem flag_of_map {l : List Upload} {bs : List Bool} {i : Nat} {b : Bool}
    (h : (l.map fun u => u.af.committed) = bs) (hb : bs[i]? = some b) :
    ∃ u, l[i]? = some u ∧ u.af.committed = b := by
  rw [← h, List.getElem?_map, Option.map_eq_some_iff] at hb
  exact hb

/-- An exclusive upload and an ordinary one; the exclusive one is first to
commit. -/
theorem create_new_exclusive_two : ∃ s e s',
    Reach (Contest.step host digests serving) (Of ["a"]) ⟨⟨⟨.blank, []⟩, []⟩, [], false⟩ s ∧
      s.step host digests serving e = some s' ∧ s.Commits s' 0 ∧ s.Exclusive 0 ∧
        ∀ x, host.lstat s.site.server.disk.tree (serving.fspath ["a"]) ≠ some (.file x) := by
  have hrun : ((exec_if (Contest.step host digests serving) to_a ⟨⟨⟨.blank, []⟩, []⟩, [], false⟩
      [.open_ ["a"] putting_new unhindered none, .open_ ["a"] (putting none) unhindered none,
        .act 0 (.write (.bytes [1] none)), .act 1 (.write (.bytes [2] none))]).bind fun s =>
      (s.step host digests serving (.act 0 (.flush ⟨none, none⟩))).map fun s' =>
        (s.exclusive, s.made, s.site.server.uploads.map fun u => u.af.committed,
          s'.site.server.uploads.map fun u => u.af.committed))
      = some ([true, false], false, [false, false], [true, false]) := by decide
  obtain ⟨s, hs, hrun⟩ := Option.bind_eq_some_iff.mp hrun
  obtain ⟨s', hs', hout⟩ := Option.map_eq_some_iff.mp hrun
  simp only [Prod.mk.injEq] at hout
  obtain ⟨hx, hm, hold, hnew⟩ := hout
  have hreach := reach_of_exec_if (C := Of ["a"]) of_to_a hs
  have hex : s.Exclusive 0 := by
    rw [Exclusive, hx]
    rfl
  obtain ⟨u, hu, hc⟩ := flag_of_map hold (show [false, false][0]? = some false from rfl)
  obtain ⟨u', hu', hc'⟩ := flag_of_map hnew (show [true, false][0]? = some true from rfl)
  have hcom : s.Commits s' 0 := ⟨u, u', hu, hu', hc, hc'⟩
  refine ⟨s, _, s', hreach, hs', hcom, hex,
    ((create_new_exclusive host digests serving .blank ["a"] hreach).1 _ s' 0
      (fun _ _ _ _ he => by cases he) hs' hcom hex).mpr ⟨hm, ?_⟩⟩
  intro j v _ hv
  have hmem : v.af.committed ∈ [false, false] := by
    rw [← hold]
    exact List.mem_map_of_mem (List.mem_of_getElem? hv)
  simpa using hmem

/-- Two exclusive uploads of one absent target both succeed, the second in the
place of the first. -/
theorem exclusive_replaces : ¬ ∀ (k : Kernel) (c : Crates) (fs : AutoMkcolFs) (d : Disk)
    (path : List String) s, Reach (Contest.step k c fs) (Of path) ⟨⟨⟨d, []⟩, []⟩, [], false⟩ s →
      s.OneWinner ∧ ∀ e s' i, Of path s e → s.step k c fs e = some s' → s.Commits s' i →
        s.Exclusive i → ∀ x, k.lstat s.site.server.disk.tree (fs.fspath path) ≠ some (.file x) := by
  intro hall
  have hrun : ((exec_if (Contest.step host digests serving) to_a ⟨⟨⟨.blank, []⟩, []⟩, [], false⟩
      [.open_ ["a"] putting_new unhindered none, .open_ ["a"] putting_new unhindered none,
        .act 0 (.write (.bytes [1] none)), .act 1 (.write (.bytes [2] none)),
        .act 0 (.flush ⟨none, none⟩), .act 1 (.flush ⟨none, none⟩)]).map fun s =>
      (s.exclusive, s.site.server.uploads.map fun u => u.af.committed))
      = some ([true, true], [true, true]) := by decide
  obtain ⟨s, hs, hout⟩ := Option.map_eq_some_iff.mp hrun
  simp only [Prod.mk.injEq] at hout
  obtain ⟨hx, hcom⟩ := hout
  have hone := (hall host digests serving .blank ["a"] s
    (reach_of_exec_if (C := Of ["a"]) of_to_a hs)).1
  obtain ⟨u, hu, hcu⟩ := flag_of_map hcom (show [true, true][0]? = some true from rfl)
  obtain ⟨v, hv, hcv⟩ := flag_of_map hcom (show [true, true][1]? = some true from rfl)
  have h01 := hone 0 1 u v (by rw [Exclusive, hx]; rfl) (by rw [Exclusive, hx]; rfl) hu hv hcu hcv
  cases h01

end WebDavs.AutoFs
