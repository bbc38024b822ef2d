/-
Whether the recursive walks end, and how often they read a directory.

`Path::is_dir` follows links, so what `walk_files`, `walk_delete` and
`copy_recursive` go through are the ways of `Ways`, from the directory of the source
along names that lead to directories. The two walks end and read no directory
twice just when no directory is entered twice (`Treelike`). `copy_recursive` makes
directories meanwhile; where it makes none in a directory of its source
(`Clear`), what it meets is what was there before, and it ends as the walks do. A
destination below the source is met for ever (`copy_inside`), and when nothing is in
its place nothing else can end the copy (`copy_into_source`).
-/
import WebDavs.Posix.Lasting
import WebDavs.Posix.Making
import WebDavs.Walks
import WebDavs.Sudo

set_option autoImplicit false

namespace WebDavs.Mover

open WebDavs.Posix WebDavs.Posix.FileTree WebDavs.Ways

/-! ## The walks -/

/-- No two entries of the directories that are reached from `src` lead to the same
directory, and none leads to the one of `src`. -/
def Treelike (k : Kernel) (t : FileTree Bytes) (src : Path) : Prop :=
  ∀ l, k.stat t src = some l → Single (into k t) l

section

variable {k : Kernel} {t : FileTree Bytes} {src : Path}

theorem Treelike.no_cycle (h : Treelike k t src) : NoCycle k t src :=
  fun l hl => (h l hl).loopless

/-- From what is no directory no name leads to one. -/
theorem dir_of_into {l m : Loc} {n : String} (h : into k t l n = some m) :
    t.get l = some .dir := by
  rw [into, walk_normal] at h
  cases he : t.get (l ++ [n]) with
  | some e => exact t.get_parent he
  | none =>
      rw [he] at h
      cases h

/-- **One path to each directory.** -/
theorem treelike_iff : Treelike k t src ↔
    ∀ s r m, k.stat t (src.down s) = some m → k.stat t (src.down r) = some m →
      t.get m = some .dir → s = r := by
  constructor
  · intro h s r m hs hr hm
    obtain ⟨l, hl, hdl⟩ := Kernel.is_dir_iff.mp
      (Kernel.is_dir_of_down (Kernel.is_dir_iff.mpr ⟨m, hs, hm⟩))
    exact single_iff_along.mp (h l hl) s r m ((along_into hl hdl).mpr ⟨hs, hm⟩)
      ((along_into hl hdl).mpr ⟨hr, hm⟩)
  · intro h l hl
    by_cases hdl : t.get l = some .dir
    · refine single_iff_along.mpr ?_
      intro s r m hs hr
      obtain ⟨hs', hm⟩ := (along_into hl hdl).mp hs
      exact h s r m hs' ((along_into hl hdl).mp hr).1 hm
    · -- nothing is reached from what is no directory
      have hno : ∀ ns u, along (into k t) l ns = some u → u = l := by
        intro ns u hu
        cases ns with
        | nil =>
            cases hu
            rfl
        | cons n ns =>
            obtain ⟨x, hx, -⟩ := along_cons.mp hu
            exact absurd (dir_of_into hx) hdl
      refine ⟨?_, ?_⟩
      · intro ns ms u u' n n' w hns _ hn _
        rw [hno ns u hns] at hn
        exact absurd (dir_of_into hn) hdl
      · intro ns u n hns hn
        rw [hno ns u hns] at hn
        exact absurd (dir_of_into hn) hdl

/-- What `walk_files` owes: it ends, and the directories it has read are not read
twice. -/
def FilesOnce (k : Kernel) (t : FileTree Bytes) (o : Order) (src : Path) : Prop :=
  ∃ fuel r, walk_files_by k t o fuel src = some r ∧
    ∀ f, r = .ok f → (f.dirs.map fun rel => k.stat t (src.down rel)).Nodup

/-- The same of `walk_delete`. -/
def DeletionsOnce (k : Kernel) (t : FileTree Bytes) (o : Order) (src : Path) : Prop :=
  ∃ fuel r, walk_delete_by k t o fuel src = some r ∧
    ∀ f, r = .ok f → (f.dirs.map (k.stat t)).Nodup

/-- The directories listed are read once when one path leads to each. -/
theorem nodup_of_treelike (h : Treelike k t src) {dirs : List (List String)} (hnodup : dirs.Nodup)
    (hdirs : ∀ rel ∈ dirs, k.is_dir t (src.down rel) = true) :
    (dirs.map fun rel => k.stat t (src.down rel)).Nodup := by
  refine hnodup.map_on ?_
  intro s hs r _ heq
  obtain ⟨m, hm, hdm⟩ := Kernel.is_dir_iff.mp (hdirs s hs)
  exact treelike_iff.mp h s r m hm (heq ▸ hm) hdm

/-- And the other way round, when all that is reached is listed. -/
theorem treelike_of_nodup {dirs : List (List String)}
    (hdirs : ∀ rel, k.is_dir t (src.down rel) = true → rel ∈ dirs)
    (hnodup : (dirs.map fun rel => k.stat t (src.down rel)).Nodup) : Treelike k t src := by
  refine treelike_iff.mpr ?_
  intro s r m hs hr hm
  exact List.inj_on_of_nodup_map hnodup (hdirs s (Kernel.is_dir_iff.mpr ⟨m, hs, hm⟩))
    (hdirs r (Kernel.is_dir_iff.mpr ⟨m, hr, hm⟩)) (by rw [hs, hr])

/-- A name that leads to a directory is one of the names. -/
theorem mem_children_of_is_dir {p : Path} {l : Loc} {n : String} (hs : k.stat t p = some l)
    (h : k.is_dir t (p.child n) = true) : n ∈ t.children l := by
  obtain ⟨m, hm, -⟩ := Kernel.is_dir_iff.mp h
  rw [Kernel.stat_child, hs, Option.bind_some, walk_normal] at hm
  rw [mem_children]
  cases he : t.get (l ++ [n]) with
  | some e => rfl
  | none =>
      rw [he] at hm
      cases hm

/-- A path to a directory is reached. -/
theorem reached_of_is_dir {rel : List String} (h : k.is_dir t (src.down rel) = true) :
    Reached k t src rel := by
  induction rel using List.reverseRecOn with
  | nil =>
      rw [Path.down_nil] at h
      exact .root (.inl h)
  | append_singleton rel n ih =>
      rw [← Path.down_child] at h
      have habove : k.is_dir t (src.down rel) = true := Kernel.is_dir_of_down (r := [n]) h
      obtain ⟨l, hl, hdl⟩ := Kernel.is_dir_iff.mp habove
      exact .child (ih habove) (names_in_eq_some.mpr ⟨l, hl, hdl, rfl⟩)
        (mem_children_of_is_dir hl h)

/-- Where there is nothing, nothing is entered. -/
theorem treelike_of_not_there (h : ¬ Present k t src) : Treelike k t src := by
  refine treelike_iff.mpr ?_
  intro s r m hs _ hm
  have hd := Kernel.is_dir_of_down (Kernel.is_dir_iff.mpr ⟨m, hs, hm⟩)
  exact absurd (.inl hd) h

/-- **`walk_files` ends and reads each directory once** just when none is entered
twice. -/
theorem files_once_iff (o : Order) : FilesOnce k t o src ↔ Treelike k t src := by
  constructor
  · rintro ⟨fuel, r, hr, hnodup⟩
    by_cases hthere : Present k t src
    · obtain ⟨vs, hvs, rfl⟩ := walk_into_spec hthere hr
      rw [foldl_files] at hnodup
      have hall : ∀ rel, k.is_dir t (src.down rel) = true → rel ∈ (Listing.of vs).dirs :=
        fun rel hrel => (hvs.lists_files.dir rel).mpr ⟨reached_of_is_dir hrel, hrel⟩
      exact treelike_of_nodup hall (hnodup _ rfl)
    · exact treelike_of_not_there hthere
  · intro h
    rcases walks_end k t o src h.no_cycle with ⟨-, hnone⟩ | ⟨n, f, g, hwalk, hf, -⟩
    · exact ⟨1, _, (hnone 0).1, fun f hf => by cases hf⟩
    · refine ⟨n, _, (hwalk 0).1, ?_⟩
      rintro f' ⟨rfl⟩
      refine nodup_of_treelike h (List.nodup_append.mp hf.once).2.1 ?_
      intro rel hrel
      exact ((hf.dir rel).mp hrel).2

/-- **`walk_delete`** reads the same directories. -/
theorem deletions_once_iff (o : Order) : DeletionsOnce k t o src ↔ Treelike k t src := by
  constructor
  · rintro ⟨fuel, r, hr, hnodup⟩
    by_cases hthere : Present k t src
    · obtain ⟨vs, hvs, rfl⟩ := walk_into_spec hthere hr
      rw [foldl_deletions] at hnodup
      have hall : ∀ rel, k.is_dir t (src.down rel) = true → rel ∈ (Listing.of vs).dirs :=
        fun rel hrel => (hvs.lists_files.dir rel).mpr ⟨reached_of_is_dir hrel, hrel⟩
      have honce := hnodup _ rfl
      simp only [List.nil_append, hvs.removal_dirs, List.map_map] at honce
      exact treelike_of_nodup hall honce
    · exact treelike_of_not_there hthere
  · intro h
    by_cases hthere : Present k t src
    · obtain ⟨vs, hvs, hwalk⟩ := walk_into_total hthere h.no_cycle o
        (fun src _ (f : Deletions) => { f with dirs := f.dirs ++ [src] })
        (fun src _ e f =>
          { f with bytes := f.bytes + UInt64.ofNat (removal_size e), files := f.files ++ [src] })
        ⟨[], [], 0⟩
      refine ⟨_, _, hwalk 0, ?_⟩
      rintro f ⟨rfl⟩
      simp only [foldl_deletions, List.nil_append, hvs.removal_dirs, List.map_map]
      have hlists := hvs.lists_files
      refine nodup_of_treelike h (List.nodup_append.mp hlists.once).2.1 ?_
      intro rel hrel
      exact ((hlists.dir rel).mp hrel).2
    · rcases walks_end k t o src h.no_cycle with ⟨-, hnone⟩ | ⟨n, f, g, hwalk, -, hg⟩
      · exact ⟨1, _, (hnone 0).2, fun f hf => by cases hf⟩
      · refine ⟨n, _, (hwalk 0).2, ?_⟩
        rintro f' ⟨rfl⟩
        -- nothing is reached
        have hnil : g.dirs = [] := by
          refine List.eq_nil_iff_forall_not_mem.mpr ?_
          intro p hp
          obtain ⟨rel, rfl, -, hd⟩ := (hg.dir p).mp hp
          exact hthere (.inl (Kernel.is_dir_of_down hd))
        rw [hnil]
        exact List.nodup_nil

end

end WebDavs.Mover

namespace WebDavs.Sudo

open WebDavs.Posix WebDavs.Posix.FileTree WebDavs.Mover WebDavs.Ways

/-! ## `copy_recursive` and what it reads -/

/-- A copy under way: the tree, the faults that are left, and the directories that
have been read, in order. -/
structure Copying where
  tree : FileTree Bytes
  faults : List Fault
  seen : List Loc

/-- The loop over a directory. -/
def copy_each_seen (copy : String → Copying → Option (Copying × Except Errno Unit)) :
    List String → Copying → Option (Copying × Except Errno Unit)
  | [], c => some (c, .ok ())
  | n :: ns, c =>
    match (now c.faults).errno with
    | some e => some ({ c with faults := c.faults.tail }, .error e)
    | none =>
      match copy n { c with faults := c.faults.tail } with
      | none => none
      | some (c, .error e) => some (c, .error e)
      | some (c, .ok _) => copy_each_seen copy ns c

/-- `copy_recursive`, with the names of a directory in any order. -/
def copy_recursive_seen (k : Kernel) (o : Order) :
    Nat → Path → Path → Copying → Option (Copying × Except Errno Unit)
  | 0, _, _, _ => none
  | fuel + 1, src, dst, c =>
    if k.is_dir c.tree src then
      match create_dir_all k c.tree dst (now c.faults) with
      | (t, some e) => some (⟨t, c.faults.tail, c.seen⟩, .error e)
      | (t, none) =>
        match read_dir k t src (now c.faults.tail) with
        | .error e => some (⟨t, c.faults.tail.tail, c.seen⟩, .error e)
        | .ok names =>
          copy_each_seen (fun n => copy_recursive_seen k o fuel (src.child n) (dst.child n))
            (o.of src names) ⟨t, c.faults.tail.tail, c.seen ++ (k.stat t src).toList⟩
    else
      match copy_file k c.tree src dst (now c.faults) with
      | (t, .error e) => some (⟨t, c.faults.tail, c.seen⟩, .error e)
      | (t, .ok _) => some (⟨t, c.faults.tail, c.seen⟩, .ok ())

/-- Without the record of what is read it is the copy of the helper. -/
theorem copy_each_seen_eq {copy : String → Copying → Option (Copying × Except Errno Unit)}
    {copy' : String → FileTree Bytes → List Fault → Option Outcome}
    (h : ∀ n c, (copy n c).map (fun x => (x.1.tree, x.1.faults, x.2)) = copy' n c.tree c.faults)
    (ns : List String) (c : Copying) :
    (copy_each_seen copy ns c).map (fun x => (x.1.tree, x.1.faults, x.2)) =
      copy_each copy' ns c.tree c.faults := by
  induction ns generalizing c with
  | nil => rfl
  | cons n ns ih =>
      rw [copy_each_seen, copy_each]
      cases (now c.faults).errno with
      | some e => rfl
      | none =>
          have hn := h n { c with faults := c.faults.tail }
          simp only at hn ⊢
          rw [← hn]
          rcases copy n { c with faults := c.faults.tail } with _ | ⟨c', e | u⟩
          · rfl
          · rfl
          · exact ih c'

theorem copy_recursive_seen_eq (k : Kernel) (fuel : Nat) (src dst : Path) (c : Copying) :
    (copy_recursive_seen k Order.same fuel src dst c).map
        (fun x => (x.1.tree, x.1.faults, x.2)) =
      copy_recursive k fuel src dst c.tree c.faults := by
  induction fuel generalizing src dst c with
  | zero => rfl
  | succ fuel ih =>
      rw [copy_recursive_seen, copy_recursive]
      by_cases hd : k.is_dir c.tree src = true
      · rw [if_pos hd, if_pos hd]
        rcases create_dir_all k c.tree dst (now c.faults) with ⟨t, _ | e⟩
        · simp only
          cases read_dir k t src (now c.faults.tail) with
          | error e => rfl
          | ok names => exact copy_each_seen_eq (fun n c => ih (src.child n) (dst.child n) c) _ _
        · rfl
      · rw [if_neg hd, if_neg hd]
        rcases copy_file k c.tree src dst (now c.faults) with ⟨t, e | m⟩
        · rfl
        · rfl

/-! ## A copy only adds -/

theorem copy_file_builds {k : Kernel} {t t' : FileTree Bytes} {src dst : Path} {f : Fault}
    {r : Except Errno Nat} (h : copy_file k t src dst f = (t', r)) : Builds t t' := by
  rcases copy_file_spec h with ⟨rfl, -⟩ | ⟨-, d, n, bs, -, hp, -, hnd, hget, -⟩
  · exact Builds.refl _
  · exact builds_of_leaf hnd (Kernel.place_spec hp).2.1 (by rw [hget, if_pos rfl])
      fun l hl => by rw [hget, if_neg hl]

theorem copy_each_builds {copy : String → Copying → Option (Copying × Except Errno Unit)}
    (h : ∀ n c c' res, copy n c = some (c', res) → Builds c.tree c'.tree) {ns : List String}
    {c c' : Copying} {res : Except Errno Unit} (hr : copy_each_seen copy ns c = some (c', res)) :
    Builds c.tree c'.tree := by
  induction ns generalizing c with
  | nil =>
      cases hr
      exact Builds.refl _
  | cons n ns ih =>
      rw [copy_each_seen] at hr
      cases hf : (now c.faults).errno with
      | some e =>
          rw [hf] at hr
          cases hr
          exact Builds.refl _
      | none =>
          rw [hf] at hr
          simp only at hr
          match hn : copy n { c with faults := c.faults.tail } with
          | none =>
              rw [hn] at hr
              cases hr
          | some (c₁, .error e) =>
              rw [hn] at hr
              cases hr
              have hfirst := h n _ _ _ hn
              exact hfirst
          | some (c₁, .ok ()) =>
              rw [hn] at hr
              have hfirst := h n _ _ _ hn
              exact Builds.trans hfirst (ih hr)

/-- **A copy only adds** to the tree. -/
theorem copy_recursive_builds {k : Kernel} {o : Order} {fuel : Nat} {src dst : Path}
    {c c' : Copying} {res : Except Errno Unit}
    (h : copy_recursive_seen k o fuel src dst c = some (c', res)) : Builds c.tree c'.tree := by
  induction fuel generalizing src dst c c' res with
  | zero => cases h
  | succ fuel ih =>
      rw [copy_recursive_seen] at h
      by_cases hd : k.is_dir c.tree src = true
      · rw [if_pos hd] at h
        have hmade := (create_dir_all_grows k c.tree dst (now c.faults)).builds
        match hmk : create_dir_all k c.tree dst (now c.faults) with
        | (t, some e) =>
            rw [hmk] at h hmade
            cases h
            exact hmade
        | (t, none) =>
            rw [hmk] at h hmade
            simp only at h
            cases hr : read_dir k t src (now c.faults.tail) with
            | error e =>
                rw [hr] at h
                cases h
                exact hmade
            | ok names =>
                rw [hr] at h
                have hloop := copy_each_builds (fun n c c' res hn => ih hn) h
                exact Builds.trans hmade hloop
      · rw [if_neg hd] at h
        match hcp : copy_file k c.tree src dst (now c.faults) with
        | (t, .error e) =>
            rw [hcp] at h
            cases h
            exact copy_file_builds hcp
        | (t, .ok _) =>
            rw [hcp] at h
            cases h
            exact copy_file_builds hcp

/-! ## A copy that does not meet what it makes -/

/-- The tree `create_dir_all` of the destination leaves. -/
def begun (k : Kernel) (t : FileTree Bytes) (dst : Path) : FileTree Bytes :=
  (k.create_dir_all t dst).1

/-- Where the copy makes a directory, if nothing is there: on the way to the destination,
and at the place of each directory of the source. -/
def MakesDir (k : Kernel) (t : FileTree Bytes) (src dst : Path) (x : Loc) : Prop :=
  (∃ i, k.locate t (dst.upto i) = some x) ∨
    ∃ r, k.is_dir t (src.down r) = true ∧ k.locate t (dst.down r) = some x

/-- A path that leads nowhere, and that the copy makes lead to a directory: on its way are
links, directories, and at least one place where the copy makes one. -/
def Opens (k : Kernel) (t : FileTree Bytes) (src dst p : Path) : Prop :=
  (∃ x ∈ k.trail t p, t.get x = none) ∧ ∀ x ∈ k.trail t p, t.linkAt x = none →
    t.get x = some .dir ∨ t.get x = none ∧ MakesDir k t src dst x

/-- The copy makes no directory in a directory of its source, and none that a link in
such a directory leads to. -/
def Clear (k : Kernel) (t : FileTree Bytes) (src dst : Path) : Prop :=
  ∀ s n, k.is_dir t (src.down s) = true → k.is_dir t (src.down (s ++ [n])) = false →
    ¬ Opens k t src dst (src.down (s ++ [n]))

/-- A tree on the way of a copy: more than at its beginning, and no directories more than
the copy makes. -/
structure Unmet (k : Kernel) (t : FileTree Bytes) (src dst : Path) (u : FileTree Bytes) :
    Prop where
  builds : Builds t u
  made : ∀ x, t.get x = none → u.get x = some .dir → MakesDir k t src dst x

theorem builds_begun (k : Kernel) (t : FileTree Bytes) (dst : Path) : Builds t (begun k t dst) :=
  (Kernel.create_dir_all_grows k t dst).builds

section

variable {k : Kernel} {t u : FileTree Bytes} {src dst : Path}

/-- On the way to a directory there are directories only, and links to some. -/
theorem dir_of_trail {p : Path} {x : Loc} (hd : k.is_dir u p = true) (hx : x ∈ k.trail u p)
    (hlink : u.linkAt x = none) : u.get x = some .dir := by
  obtain ⟨l, hs, hl⟩ := Kernel.is_dir_iff.mp hd
  obtain ⟨d, n, rfl, hlead⟩ := Kernel.trail_leads hs hl hx
  exact dir_of_leads hlead hlink

/-- A path that leads to no directory, and is not opened, leads to none later. -/
theorem Unmet.closed (h : Unmet k t src dst u) {p : Path} (hstart : t.get (k.start p) = some .dir)
    (hd : k.is_dir t p = false) (hopen : ¬ Opens k t src dst p) : k.is_dir u p = false := by
  by_contra hu
  rw [Bool.not_eq_false] at hu
  have hway : ∀ x ∈ k.trail t p, t.linkAt x = none →
      t.get x = some .dir ∨ t.get x = none ∧ MakesDir k t src dst x := by
    intro x hx hlink
    rw [← Kernel.trail_builds h.builds] at hx
    have hdir := dir_of_trail hu hx ((h.builds.link x).trans hlink)
    cases hg : t.get x with
    | none => exact .inr ⟨rfl, h.made x hg hdir⟩
    | some e =>
        cases e with
        | dir => exact .inl rfl
        | symlink q =>
            rw [linkAt_eq_some.mpr hg] at hlink
            cases hlink
        | file a =>
            -- a file never becomes a directory
            obtain ⟨b, hb⟩ := h.builds.file x a hg
            rw [hdir] at hb
            cases hb
  obtain ⟨l, hs, hl⟩ := Kernel.is_dir_iff.mp hu
  have hback := Kernel.dir_back h.builds hs hl hstart fun x hx hfree =>
    absurd ⟨⟨x, hx, hfree⟩, hway⟩ hopen
  rw [Kernel.is_dir_iff.mpr ⟨l, hback⟩] at hd
  cases hd

/-- **The directories of the source** are those that were in it. -/
theorem Unmet.is_dir_iff (h : Unmet k t src dst u) (hc : Clear k t src dst)
    (hsrc : k.is_dir t src = true) (s : List String) :
    k.is_dir u (src.down s) = true ↔ k.is_dir t (src.down s) = true := by
  refine ⟨?_, Kernel.is_dir_builds h.builds⟩
  induction s using List.reverseRecOn with
  | nil => exact fun _ => by rwa [Path.down_nil]
  | append_singleton s n ih =>
      intro hu
      have habove : k.is_dir u (src.down s) = true := by
        rw [← Path.down_child] at hu
        exact Kernel.is_dir_of_down (r := [n]) hu
      have hup := ih habove
      obtain ⟨l, hl, -⟩ := Kernel.is_dir_iff.mp hup
      by_contra hd
      rw [Bool.not_eq_true] at hd
      rw [h.closed (p := src.down (s ++ [n])) (Kernel.stat_eq_some.mp hl).1 hd (hc s n hup hd)] at hu
      cases hu

/-- And its ways lead where they led. -/
theorem Unmet.stat_iff (h : Unmet k t src dst u) (hc : Clear k t src dst)
    (hsrc : k.is_dir t src = true) {s : List String} {m : Loc} :
    (k.stat u (src.down s) = some m ∧ u.get m = some .dir) ↔
      (k.stat t (src.down s) = some m ∧ t.get m = some .dir) := by
  constructor
  · rintro ⟨hs, hm⟩
    have hd := (h.is_dir_iff hc hsrc s).mp (Kernel.is_dir_iff.mpr ⟨m, hs, hm⟩)
    obtain ⟨l, hl, hld⟩ := Kernel.is_dir_iff.mp hd
    cases (Kernel.stat_builds h.builds hl).symm.trans hs
    exact ⟨hl, hld⟩
  · rintro ⟨hs, hm⟩
    exact ⟨Kernel.stat_builds h.builds hs, h.builds.dir m hm⟩

theorem Unmet.start (k : Kernel) (t : FileTree Bytes) (src dst : Path) : Unmet k t src dst t := by
  refine ⟨.refl t, ?_⟩
  intro x hfree hd
  rw [hfree] at hd
  cases hd

/-- **Making the directory** of a directory of the source. -/
theorem Unmet.create (h : Unmet k t src dst u) {s : List String}
    (hway : k.is_dir t (src.down s) = true) :
    Unmet k t src dst (k.create_dir_all u (dst.down s)).1 := by
  refine ⟨h.builds.trans (Kernel.create_dir_all_grows k u (dst.down s)).builds, ?_⟩
  intro x hfree hd
  by_cases hx : u.get x = some .dir
  · exact h.made x hfree hx
  · -- a new directory is one on the way to the path
    rcases Kernel.create_dirs_made x with he | ⟨i, hi⟩
    · exact absurd (he.symm.trans hd) hx
    · rw [Kernel.locate_builds h.builds] at hi
      rcases Path.upto_down dst s i with hup | ⟨m, hup⟩
      · exact .inl ⟨i, hup ▸ hi⟩
      · refine .inr ⟨s.take m, ?_, hup ▸ hi⟩
        rw [← List.take_append_drop m s, ← Path.down_down] at hway
        exact Kernel.is_dir_of_down hway

/-- Copying a file makes no directory. -/
theorem Unmet.copied (h : Unmet k t src dst u) {a b : Path} {f : Fault} {u' : FileTree Bytes}
    {r : Except Errno Nat} (hcopy : copy_file k u a b f = (u', r)) : Unmet k t src dst u' := by
  refine ⟨h.builds.trans (copy_file_builds hcopy), ?_⟩
  intro x hfree hd
  rcases copy_file_spec hcopy with ⟨rfl, -⟩ | ⟨-, d, n, bs, -, -, -, -, hget, -⟩
  · exact h.made x hfree hd
  · refine h.made x hfree ?_
    rw [hget] at hd
    by_cases heq : x = d ++ [n]
    · rw [if_pos heq] at hd
      cases hd
    · rwa [if_neg heq] at hd

/-- What a part of the copy has read: the directories of some ways of the source,
each way once, all of them through one of the given ways. -/
def Sees (k : Kernel) (t : FileTree Bytes) (src : Path) (through : List (List String))
    (seen seen' : List Loc) : Prop :=
  ∃ ws : List (List String), ws.Nodup ∧
    (∀ w ∈ ws, k.is_dir t (src.down w) = true ∧ ∃ s ∈ through, s <+: w) ∧
    seen'.map some = seen.map some ++ ws.map fun w => k.stat t (src.down w)

theorem Sees.refl (through : List (List String)) (seen : List Loc) :
    Sees k t src through seen seen := ⟨[], List.nodup_nil, by simp, by simp⟩

theorem Sees.mono {vs ws : List (List String)} {seen seen' : List Loc}
    (h : Sees k t src vs seen seen') (hsub : ∀ v ∈ vs, ∃ w ∈ ws, w <+: v) :
    Sees k t src ws seen seen' := by
  obtain ⟨us, hnodup, hus, hseen⟩ := h
  refine ⟨us, hnodup, ?_, hseen⟩
  intro u hu
  obtain ⟨hd, v, hv, hvu⟩ := hus u hu
  obtain ⟨w, hw, hwv⟩ := hsub v hv
  exact ⟨hd, w, hw, hwv.trans hvu⟩

/-- Reading through one way and then through others that do not run below it. -/
theorem Sees.trans {v : List String} {ws : List (List String)} {seen seen' seen'' : List Loc}
    (h : Sees k t src [v] seen seen') (h' : Sees k t src ws seen' seen'')
    (hapart : ∀ w ∈ ws, w.length = v.length ∧ w ≠ v) : Sees k t src (v :: ws) seen seen'' := by
  obtain ⟨us, hnodup, hus, hseen⟩ := h
  obtain ⟨us', hnodup', hus', hseen'⟩ := h'
  refine ⟨us ++ us', List.nodup_append.mpr ⟨hnodup, hnodup', ?_⟩, ?_, ?_⟩
  · intro x hx y hy hxy
    subst hxy
    obtain ⟨-, v', hv', hvx⟩ := hus x hx
    obtain ⟨-, w, hw, hwx⟩ := hus' x hy
    rw [List.mem_singleton.mp hv'] at hvx
    obtain ⟨hlen, hne⟩ := hapart w hw
    exact hne (List.prefix_of_prefix_length_le hwx hvx (Nat.le_of_eq hlen) |>.eq_of_length hlen)
  · intro x hx
    rcases List.mem_append.mp hx with hx | hx
    · obtain ⟨hd, v', hv', hvx⟩ := hus x hx
      exact ⟨hd, v, List.mem_cons_self, by rwa [List.mem_singleton.mp hv'] at hvx⟩
    · obtain ⟨hd, w, hw, hwx⟩ := hus' x hx
      exact ⟨hd, w, List.mem_cons_of_mem _ hw, hwx⟩
  · rw [hseen', hseen, List.map_append, List.append_assoc]

/-- Reading a directory, and then through the names in it. -/
theorem Sees.under {s : List String} {l : Loc} {ns : List String} {seen seen' : List Loc}
    (h : Sees k t src (ns.map fun n => s ++ [n]) (seen ++ [l]) seen')
    (hway : k.is_dir t (src.down s) = true) (hst : k.stat t (src.down s) = some l) :
    Sees k t src [s] seen seen' := by
  obtain ⟨us, hnodup, hus, hseen⟩ := h
  have hbelow : ∀ x ∈ us, s <+: x ∧ x ≠ s := by
    intro x hx
    obtain ⟨-, v, hv, hvx⟩ := hus x hx
    obtain ⟨n, -, rfl⟩ := List.mem_map.mp hv
    refine ⟨(List.prefix_append s [n]).trans hvx, ?_⟩
    rintro rfl
    have hlen := hvx.length_le
    rw [List.length_append, List.length_singleton] at hlen
    omega
  refine ⟨s :: us, List.nodup_cons.mpr ⟨fun hs => (hbelow s hs).2 rfl, hnodup⟩, ?_, ?_⟩
  · intro x hx
    rcases List.mem_cons.mp hx with rfl | hx
    · exact ⟨hway, x, List.mem_cons_self, List.prefix_rfl⟩
    · exact ⟨(hus x hx).1, s, List.mem_cons_self, (hbelow x hx).1⟩
  · rw [hseen]
    simp [hst]

/-- What a call of the copy, or a part of its loop, comes to. -/
structure Ends (k : Kernel) (t : FileTree Bytes) (src dst : Path) (through : List (List String))
    (c : Copying) (r : Option (Copying × Except Errno Unit)) : Prop where
  ends : r ≠ none
  sees : ∀ c' res, r = some (c', res) → Sees k t src through c.seen c'.seen
  unmet : ∀ c', r = some (c', .ok ()) → Unmet k t src dst c'.tree

theorem Ends.error {through : List (List String)} {c c' : Copying} {e : Errno}
    (h : c'.seen = c.seen) : Ends k t src dst through c (some (c', .error e)) := by
  refine ⟨by simp, ?_, ?_⟩
  · intro c'' res heq
    cases heq
    rw [h]
    exact Sees.refl _ _
  · intro c'' heq
    cases heq

/-- **The loop** over names of one directory. -/
theorem copy_each_ends {s : List String}
    {copy : String → Copying → Option (Copying × Except Errno Unit)} {ns : List String}
    (hnodup : ns.Nodup)
    (hcopy : ∀ n ∈ ns, ∀ c, Unmet k t src dst c.tree → Ends k t src dst [s ++ [n]] c (copy n c))
    {c : Copying} (hc : Unmet k t src dst c.tree) :
    Ends k t src dst (ns.map fun n => s ++ [n]) c (copy_each_seen copy ns c) := by
  induction ns generalizing c with
  | nil =>
      refine ⟨by simp [copy_each_seen], ?_, ?_⟩
      · intro c' res heq
        cases heq
        exact Sees.refl _ _
      · intro c' heq
        cases heq
        exact hc
  | cons n ns ih =>
      obtain ⟨hfresh, hrest⟩ := List.nodup_cons.mp hnodup
      rw [copy_each_seen]
      cases (now c.faults).errno with
      | some e => exact Ends.error rfl
      | none =>
          have hends := hcopy n List.mem_cons_self { c with faults := c.faults.tail } hc
          simp only
          match hn : copy n { c with faults := c.faults.tail } with
          | none => exact absurd hn hends.ends
          -- an error ends the loop, and only the first name has been seen
          | some (c', .error e) =>
              refine ⟨by simp, ?_, ?_⟩
              · intro c'' res heq
                cases heq
                exact (hends.sees c' _ hn).mono (by simp)
              · intro c'' heq
                cases heq
          | some (c', .ok ()) =>
              have hnext := ih hrest (fun m hm => hcopy m (List.mem_cons_of_mem _ hm))
                (hends.unmet c' hn)
              refine ⟨hnext.ends, ?_, hnext.unmet⟩
              intro c'' res heq
              refine (hends.sees c' _ hn).trans (hnext.sees c'' res heq) ?_
              intro w hw
              obtain ⟨m, hm, rfl⟩ := List.mem_map.mp hw
              refine ⟨by simp, ?_⟩
              intro heq
              -- two names of the directory are two paths, so nothing is seen twice
              have hmn : m = n := by simpa using heq
              rw [hmn] at hm
              exact hfresh hm

/-- **One call**, on a name of a directory of the source. -/
theorem copy_ends {o : Order} {fuel : Nat} {s : List String} {n : String}
    (hc : Clear k t src dst) (hsrc : k.is_dir t src = true) (hup : k.is_dir t (src.down s) = true)
    (hb : ∀ w, k.is_dir t (src.down w) = true → w.length < fuel + s.length) {c : Copying}
    (hu : Unmet k t src dst c.tree) :
    Ends k t src dst [s ++ [n]] c
      (copy_recursive_seen k o fuel (src.down (s ++ [n])) (dst.down (s ++ [n])) c) := by
  -- the induction is on the fuel, of which there is as much as the directories below `s` are
  -- deep
  induction fuel generalizing s n c with
  | zero =>
      have hlen := hb s hup
      omega
  | succ fuel ih =>
      rw [copy_recursive_seen]
      by_cases hd : k.is_dir c.tree (src.down (s ++ [n])) = true
      · rw [if_pos hd]
        -- a directory that is copied is one of the source, whatever the copy has made so far
        have hway := (hu.is_dir_iff hc hsrc (s ++ [n])).mp hd
        match hmk : create_dir_all k c.tree (dst.down (s ++ [n])) (now c.faults) with
        | (u, some e) => exact Ends.error rfl
        | (u, none) =>
            have hok : (create_dir_all k c.tree (dst.down (s ++ [n])) (now c.faults)).2 = none := by
              rw [hmk]
            rw [create_dir_all_ok hok] at hmk
            have hu' := hu.create hway
            rw [show (k.create_dir_all c.tree (dst.down (s ++ [n]))).1 = u from
              congrArg Prod.fst hmk] at hu'
            simp only
            cases hr : read_dir k u (src.down (s ++ [n])) (now c.faults.tail) with
            | error e => exact Ends.error rfl
            | ok names =>
                obtain ⟨l, hs, hl, rfl⟩ := read_dir_ok hr
                have hst := ((hu'.stat_iff hc hsrc).mp ⟨hs, hl⟩).1
                have hnodup : (o.of (src.down (s ++ [n])) (u.children l)).Nodup :=
                  (o.perm _ _).nodup_iff.mpr (u.nodup_children l)
                -- each name that was read is a way one longer, and the bound is one smaller
                have hcall : ∀ m ∈ o.of (src.down (s ++ [n])) (u.children l), ∀ c',
                    Unmet k t src dst c'.tree → Ends k t src dst [s ++ [n] ++ [m]] c'
                      (copy_recursive_seen k o fuel ((src.down (s ++ [n])).child m)
                        ((dst.down (s ++ [n])).child m) c') := by
                  intro m _ c' hc'
                  rw [Path.down_child, Path.down_child]
                  refine ih hway ?_ hc'
                  intro w hw
                  have hlen := hb w hw
                  rw [List.length_append, List.length_singleton]
                  omega
                have hloop := copy_each_ends hnodup hcall
                  (c := ⟨u, c.faults.tail.tail,
                    c.seen ++ (k.stat u (src.down (s ++ [n]))).toList⟩) hu'
                refine ⟨hloop.ends, ?_, hloop.unmet⟩
                intro c' res heq
                -- the directory itself is seen once, and before what is in it
                have hsees := hloop.sees c' res heq
                simp only [hs, Option.toList_some] at hsees
                exact hsees.under hway hst
      · rw [if_neg hd]
        match hcp : copy_file k c.tree (src.down (s ++ [n])) (dst.down (s ++ [n])) (now c.faults) with
        | (u, .error e) => exact Ends.error rfl
        | (u, .ok m) =>
            refine ⟨by simp, ?_, ?_⟩
            · intro c' res heq
              cases heq
              exact Sees.refl _ _
            · intro c' heq
              cases heq
              exact hu.copied hcp

end

section

variable {k : Kernel} {t : FileTree Bytes} {src dst : Path}

/-- Directories of different ways are different where one way leads to each. -/
theorem Sees.nodup {through : List (List String)} {seen : List Loc}
    (h : Sees k t src through [] seen) (ht : Treelike k t src) : seen.Nodup := by
  obtain ⟨ws, hnodup, hws, hseen⟩ := h
  have honce : (ws.map fun w => k.stat t (src.down w)).Nodup :=
    nodup_of_treelike ht hnodup fun w hw => (hws w hw).1
  rw [List.map_nil, List.nil_append] at hseen
  rw [← hseen] at honce
  exact honce.of_map some

/-- **A copy that does not meet what it makes** ends, and reads no directory twice. -/
theorem copy_once (o : Order) (fs : List Fault)
    (h : (k.create_dir_all t dst).2 = none → Treelike k t src ∧ Clear k t src dst) :
    ∃ c res, copy_recursive_seen k o (t.dom.length + 1) src dst ⟨t, fs, []⟩ = some (c, res) ∧
      c.seen.Nodup := by
  rw [copy_recursive_seen]
  by_cases hsrc : k.is_dir t src = true
  · rw [if_pos hsrc]
    match hmk : create_dir_all k t dst (now fs) with
    | (u, some e) => exact ⟨_, _, rfl, List.nodup_nil⟩
    | (u, none) =>
        have hok : (create_dir_all k t dst (now fs)).2 = none := by rw [hmk]
        have hnow := create_dir_all_ok hok
        rw [hnow] at hok hmk
        obtain ⟨ht, hc⟩ := h hok
        have hbegun : u = begun k t dst := (congrArg Prod.fst hmk).symm
        subst hbegun
        have hunmet : Unmet k t src dst (begun k t dst) := by
          have hroot := (Unmet.start k t src dst).create (s := []) (by rwa [Path.down_nil])
          rwa [Path.down_nil] at hroot
        simp only
        cases hr : read_dir k (begun k t dst) src (now fs.tail) with
        | error e => exact ⟨_, _, rfl, List.nodup_nil⟩
        | ok names =>
            obtain ⟨l, hs, hl, rfl⟩ := read_dir_ok hr
            have hst : k.stat t (src.down []) = some l :=
              ((hunmet.stat_iff hc hsrc).mp ⟨by rwa [Path.down_nil], hl⟩).1
            have hnodup : (o.of src ((begun k t dst).children l)).Nodup :=
              (o.perm _ _).nodup_iff.mpr (FileTree.nodup_children _ l)
            -- without a cycle no way is longer than the tree has places
            have hcall : ∀ m ∈ o.of src ((begun k t dst).children l), ∀ c',
                Unmet k t src dst c'.tree → Ends k t src dst [[] ++ [m]] c'
                  (copy_recursive_seen k o t.dom.length (src.child m) (dst.child m) c') := by
              intro m _ c' hc'
              refine copy_ends hc hsrc (by rwa [Path.down_nil]) ?_ hc'
              intro w hw
              have hlen := length_of_no_cycle ht.no_cycle hw
              rw [List.length_nil]
              omega
            have hloop := copy_each_ends hnodup hcall
              (c := ⟨begun k t dst, fs.tail.tail, [] ++ (k.stat (begun k t dst) src).toList⟩)
              hunmet
            obtain ⟨⟨c, res⟩, hrun⟩ := Option.ne_none_iff_exists'.mp hloop.ends
            refine ⟨c, res, hrun, ?_⟩
            have hsees := hloop.sees c res hrun
            simp only [hs, Option.toList_some] at hsees
            exact (hsees.under (by rwa [Path.down_nil]) hst).nodup ht
  · rw [if_neg hsrc]
    match copy_file k t src dst (now fs) with
    | (u, .error e) => exact ⟨_, _, rfl, List.nodup_nil⟩
    | (u, .ok m) => exact ⟨_, _, rfl, List.nodup_nil⟩

/-! ## A copy that succeeds -/

/-- A loop that succeeds has made each of its calls, each with success. -/
theorem copy_each_call {copy : String → Copying → Option (Copying × Except Errno Unit)}
    (hgrow : ∀ n c c' res, copy n c = some (c', res) → Builds c.tree c'.tree)
    {ns : List String} {c c' : Copying} (h : copy_each_seen copy ns c = some (c', .ok ()))
    {n : String} (hn : n ∈ ns) :
    ∃ c₁ c₂, Builds c.tree c₁.tree ∧ copy n c₁ = some (c₂, .ok ()) := by
  induction ns generalizing c with
  | nil => cases hn
  | cons m ns ih =>
      rw [copy_each_seen] at h
      cases hf : (now c.faults).errno with
      | some e =>
          rw [hf] at h
          cases h
      | none =>
          rw [hf] at h
          simp only at h
          match hm : copy m { c with faults := c.faults.tail } with
          | none =>
              rw [hm] at h
              cases h
          | some (c₁, .error e) =>
              rw [hm] at h
              cases h
          | some (c₁, .ok ()) =>
              rw [hm] at h
              rcases List.mem_cons.mp hn with rfl | hn
              · exact ⟨{ c with faults := c.faults.tail }, c₁, Builds.refl _, hm⟩
              · obtain ⟨c₂, c₃, hgrown, hcall⟩ := ih h hn
                have hfirst := hgrow m _ _ _ hm
                exact ⟨c₂, c₃, Builds.trans hfirst hgrown, hcall⟩

/-- A copy of a directory that succeeds has made its place, and then a successful
call for every name in the directory. -/
theorem copy_dir_ok {o : Order} {fuel : Nat} {c c' : Copying}
    (h : copy_recursive_seen k o (fuel + 1) src dst c = some (c', .ok ()))
    (hsrc : k.is_dir c.tree src = true) :
    ∃ l, (k.create_dir_all c.tree dst).2 = none ∧
      k.stat (begun k c.tree dst) src = some l ∧ (begun k c.tree dst).get l = some .dir ∧
      ∀ n ∈ (begun k c.tree dst).children l, ∃ c₁ c₂, Builds (begun k c.tree dst) c₁.tree ∧
        copy_recursive_seen k o fuel (src.child n) (dst.child n) c₁ = some (c₂, .ok ()) := by
  rw [copy_recursive_seen, if_pos hsrc] at h
  match hmk : create_dir_all k c.tree dst (now c.faults) with
  | (u, some e) =>
      rw [hmk] at h
      cases h
  | (u, none) =>
      have hok : (create_dir_all k c.tree dst (now c.faults)).2 = none := by rw [hmk]
      have hnow := create_dir_all_ok hok
      rw [hmk] at h
      rw [hnow] at hok hmk
      have hbegun : u = begun k c.tree dst := (congrArg Prod.fst hmk).symm
      subst hbegun
      simp only at h
      cases hr : read_dir k (begun k c.tree dst) src (now c.faults.tail) with
      | error e =>
          rw [hr] at h
          cases h
      | ok names =>
          obtain ⟨l, hs, hl, rfl⟩ := read_dir_ok hr
          rw [hr] at h
          refine ⟨l, hok, hs, hl, ?_⟩
          intro n hn
          have hn' := (o.perm src _).mem_iff.mpr hn
          exact copy_each_call (fun m c' c'' res hm => copy_recursive_builds hm) h hn'

/-- The directories of the ways from `src` are among those read since `seen`. -/
def Covers (k : Kernel) (t : FileTree Bytes) (src : Path) (ns : List String)
    (seen seen' : List Loc) : Prop :=
  ∃ ws : List (List String × Loc), seen' = seen ++ ws.map Prod.snd ∧
    ∀ n ∈ ns, ∀ s m, k.stat t (src.down (n :: s)) = some m → t.get m = some .dir → (n :: s, m) ∈ ws

theorem copy_each_covers {copy : String → Copying → Option (Copying × Except Errno Unit)}
    (hgrow : ∀ n c c' res, copy n c = some (c', res) → Builds c.tree c'.tree)
    (hcopy : ∀ n c c', copy n c = some (c', .ok ()) → ∃ ws : List (List String × Loc),
      c'.seen = c.seen ++ ws.map Prod.snd ∧ ∀ s m, k.stat c.tree ((src.child n).down s) = some m →
        c.tree.get m = some .dir → (s, m) ∈ ws)
    {ns : List String} {c c' : Copying} (ht : Builds t c.tree)
    (h : copy_each_seen copy ns c = some (c', .ok ())) : Covers k t src ns c.seen c'.seen := by
  induction ns generalizing c with
  | nil =>
      cases h
      exact ⟨[], by simp, by simp⟩
  | cons n ns ih =>
      rw [copy_each_seen] at h
      cases hf : (now c.faults).errno with
      | some e =>
          rw [hf] at h
          cases h
      | none =>
          rw [hf] at h
          simp only at h
          match hn : copy n { c with faults := c.faults.tail } with
          | none =>
              rw [hn] at h
              cases h
          | some (c₁, .error e) =>
              rw [hn] at h
              cases h
          | some (c₁, .ok ()) =>
              rw [hn] at h
              obtain ⟨ws, hseen, hws⟩ := hcopy n _ _ hn
              have hgrown := hgrow n _ _ _ hn
              obtain ⟨us, hseen', hus⟩ := ih (ht.trans hgrown) h
              -- what the first name has covered, under that name, and what the others have
              refine ⟨(ws.map fun w => (n :: w.1, w.2)) ++ us, ?_, ?_⟩
              · rw [hseen', hseen, List.map_append, List.map_map, ← List.append_assoc]
                rfl
              · intro m hm s l hs hl
                rw [List.mem_append]
                rcases List.mem_cons.mp hm with rfl | hm
                · refine .inl (List.mem_map.mpr ⟨(s, l), ?_, rfl⟩)
                  refine hws s l ?_ (ht.dir l hl)
                  rw [Path.child_down]
                  exact Kernel.stat_builds ht hs
                · exact .inr (hus m hm s l hs hl)

/-- **A copy that succeeds** has read the directory of every way of its source. -/
theorem copy_covers {o : Order} {fuel : Nat} {c c' : Copying}
    (h : copy_recursive_seen k o fuel src dst c = some (c', .ok ())) :
    ∃ ws : List (List String × Loc), c'.seen = c.seen ++ ws.map Prod.snd ∧
      ∀ s m, k.stat c.tree (src.down s) = some m → c.tree.get m = some .dir → (s, m) ∈ ws := by
  induction fuel generalizing src dst c c' with
  | zero => cases h
  | succ fuel ih =>
      rw [copy_recursive_seen] at h
      by_cases hd : k.is_dir c.tree src = true
      · rw [if_pos hd] at h
        have hmade := (create_dir_all_grows k c.tree dst (now c.faults)).builds
        match hmk : create_dir_all k c.tree dst (now c.faults) with
        | (u, some e) =>
            rw [hmk] at h
            cases h
        | (u, none) =>
            rw [hmk] at h hmade
            simp only at h
            cases hr : read_dir k u src (now c.faults.tail) with
            | error e =>
                rw [hr] at h
                cases h
            | ok names =>
                obtain ⟨l, hs, hl, rfl⟩ := read_dir_ok hr
                rw [hr] at h
                obtain ⟨ws, hseen, hws⟩ := @copy_each_covers k _ src _
                  (fun n c c' res hn => copy_recursive_builds hn) (fun n c c' hn => ih hn) _ _ _
                    hmade h
                refine ⟨([], l) :: ws, ?_, ?_⟩
                · rw [hseen, hs]
                  simp
                · intro s m hsm hm
                  -- a directory of the source has been read here, or under the first name of
                  -- its way
                  cases s with
                  | nil =>
                      have hst := Kernel.stat_builds hmade hsm
                      rw [Path.down_nil, hs] at hst
                      cases hst
                      exact List.mem_cons_self
                  | cons n s =>
                      refine List.mem_cons_of_mem _ (hws n ?_ s m hsm hm)
                      rw [(o.perm src _).mem_iff]
                      have hst := Kernel.stat_builds hmade hsm
                      rw [← Path.child_down] at hst
                      exact mem_children_of_is_dir hs (Kernel.is_dir_of_down
                        (Kernel.is_dir_iff.mpr ⟨m, hst, hmade.dir m hm⟩))
      · rw [if_neg hd] at h
        match hcp : copy_file k c.tree src dst (now c.faults) with
        | (u, .error e) =>
            rw [hcp] at h
            cases h
        | (u, .ok m) =>
            rw [hcp] at h
            cases h
            refine ⟨[], by simp, ?_⟩
            intro s m hsm hm
            have hdir := Kernel.is_dir_of_down (Kernel.is_dir_iff.mpr ⟨m, hsm, hm⟩)
            exact absurd hdir hd

/-- The destination, once it is made, is a directory that is reached from the source
by one name at least. -/
def Inside (k : Kernel) (t : FileTree Bytes) (src dst : Path) : Prop :=
  k.is_dir t src = true ∧ ∃ r d, r ≠ [] ∧ k.stat (begun k t dst) dst = some d ∧
    k.stat (begun k t dst) (src.down r) = some d ∧ (begun k t dst).get d = some .dir

/-- Going round: from the source to the destination, and on along the same names. -/
theorem next_round {r s : List String} (hr : r ≠ []) (h : s <+: r ++ s) :
    ∃ a, s ++ [a] <+: r ++ s := by
  obtain ⟨w, hw⟩ := h
  cases w with
  | nil =>
      have hlen := congrArg List.length hw
      rw [List.append_nil, List.length_append] at hlen
      exact absurd (List.length_eq_zero_iff.mp (by omega)) hr
  | cons a w => exact ⟨a, w, by rw [List.append_assoc, List.singleton_append, hw]⟩

/-- **A copy into the source** goes down its own output and never succeeds. -/
theorem copy_inside {o : Order} {r : List String} {d : Loc} {u : FileTree Bytes} (hr : r ≠ [])
    (hdst : k.stat u dst = some d) (hsrc : k.stat u (src.down r) = some d) {fuel : Nat}
    {s : List String} {c c' : Copying} (hround : s <+: r ++ s) (hgrown : Builds u c.tree)
    (hway : k.is_dir c.tree (src.down s) = true) :
    copy_recursive_seen k o fuel (src.down s) (dst.down s) c ≠ some (c', .ok ()) := by
  induction fuel generalizing s c c' with
  | zero => simp [copy_recursive_seen]
  | succ fuel ih =>
      intro h
      obtain ⟨l, hok, hl, hdl, hcalls⟩ := copy_dir_ok h hway
      have hmade := hgrown.trans (builds_begun k c.tree (dst.down s))
      -- the place of the copy, which is a directory of the source as well
      have hplace : k.is_dir (begun k c.tree (dst.down s)) (dst.down s) = true := by
        refine create_dir_all_is_dir (f := .none) ?_ hok
        exact hgrown.dir _ (Kernel.stat_eq_some.mp hdst).1
      have hagain : k.is_dir (begun k c.tree (dst.down s)) (src.down (r ++ s)) = true := by
        obtain ⟨m, hm, hdm⟩ := Kernel.is_dir_iff.mp hplace
        refine Kernel.is_dir_iff.mpr ⟨m, ?_, hdm⟩
        rw [Kernel.stat_down, Kernel.stat_builds hmade hdst] at hm
        rw [← Path.down_down, Kernel.stat_down, Kernel.stat_builds hmade hsrc]
        exact hm
      obtain ⟨a, w, hw⟩ := next_round hr hround
      have hnext : k.is_dir (begun k c.tree (dst.down s)) (src.down (s ++ [a])) = true := by
        rw [← hw, ← Path.down_down] at hagain
        exact Kernel.is_dir_of_down hagain
      have hchild : a ∈ (begun k c.tree (dst.down s)).children l :=
        mem_children_of_is_dir hl (by rwa [Path.down_child])
      obtain ⟨c₁, c₂, hgrown', hcall⟩ := hcalls a hchild
      rw [Path.down_child, Path.down_child] at hcall
      refine ih ?_ (hmade.trans hgrown') (Kernel.is_dir_builds hgrown' hnext) hcall
      exact ⟨w ++ [a], by rw [← List.append_assoc, hw, List.append_assoc]⟩

/-- A copy that succeeds and reads no directory twice has a source in which none is
entered twice, and a destination outside it. -/
theorem copy_ok_only {o : Order} {fuel : Nat} {fs : List Fault} {c : Copying}
    (h : copy_recursive_seen k o fuel src dst ⟨t, fs, []⟩ = some (c, .ok ()))
    (hnodup : c.seen.Nodup) : Treelike k t src ∧ ¬ Inside k t src dst := by
  constructor
  · obtain ⟨ws, hseen, hws⟩ := copy_covers h
    rw [List.nil_append] at hseen
    rw [hseen] at hnodup
    refine treelike_iff.mpr ?_
    intro s r m hs hr hm
    have heq := List.inj_on_of_nodup_map hnodup (hws s m hs hm) (hws r m hr hm) rfl
    exact congrArg Prod.fst heq
  · rintro ⟨hsrc, r, d, hr, hdst, hway, hd⟩
    cases fuel with
    | zero => cases h
    | succ fuel =>
        obtain ⟨l, -, hl, hdl, hcalls⟩ := copy_dir_ok h hsrc
        obtain ⟨a, r', rfl⟩ := List.exists_cons_of_ne_nil hr
        have hnext : k.is_dir (begun k t dst) (src.child a) = true := by
          rw [← Path.child_down] at hway
          exact Kernel.is_dir_of_down (Kernel.is_dir_iff.mpr ⟨d, hway, hd⟩)
        have hchild : a ∈ (begun k t dst).children l := mem_children_of_is_dir hl hnext
        obtain ⟨c₁, c₂, hgrown, hcall⟩ := hcalls a hchild
        rw [Path.child_eq_down, Path.child_eq_down] at hcall
        refine copy_inside hr hdst hway ?_ hgrown (Kernel.is_dir_builds hgrown ?_) hcall
        · exact ⟨r' ++ [a], by simp⟩
        · rwa [← Path.child_eq_down]

end

/-! ## An ordinary copy -/

section

variable {k : Kernel} {t : FileTree Bytes} {src q : Path} {D : Loc} {n : String}

/-- To a free name the copy makes directories at that name and below it. -/
theorem makesDir_below (hq : k.stat t q = some D) (hD : t.get D = some .dir)
    (hfree : t.get (D ++ [n]) = none) {x : Loc} (hx : t.get x = none)
    (hm : MakesDir k t src (q.child n) x) : D ++ [n] <+: x := by
  have hbelow : ∀ r, k.locate t ((q.child n).down r) = some (D ++ [n] ++ r) := by
    intro r
    have hslot : k.slot t (q.child n) = some (D, n) := Kernel.slot_child_eq_some.mpr ⟨hq, hD, rfl⟩
    refine locate_down_names (Kernel.locate_of_slot hslot (linkAt_of_none hfree)) ?_
    intro s hs _
    exact linkAt_of_none (t.get_below hs (by simp [hfree]))
  rcases hm with ⟨i, hi⟩ | ⟨r, -, hr⟩
  · rw [Path.child_eq_down] at hi
    rcases Path.upto_down q [n] i with hup | ⟨m, hup⟩
    · -- above the name everything is there
      obtain ⟨l, hl⟩ := Kernel.stat_upto hq i
      obtain ⟨e, he, -⟩ := Kernel.stat_spec hl
      rw [hup, Kernel.locate_of_stat hl] at hi
      cases hi
      rw [he] at hx
      cases hx
    · cases m with
      | zero =>
          rw [hup, List.take_zero, Path.down_nil, Kernel.locate_of_stat hq] at hi
          cases hi
          rw [hD] at hx
          cases hx
      | succ m =>
          rw [hup, List.take_of_length_le (by simp), ← Path.child_eq_down] at hi
          have hname := hbelow []
          rw [Path.down_nil, List.append_nil, hi] at hname
          exact (Option.some.inj hname) ▸ List.prefix_rfl
  · rw [hbelow r] at hr
    exact (Option.some.inj hr) ▸ List.prefix_append _ r

/-- **An ordinary copy**, to a free name of a directory that is none of the source, and to
which and below which no link leads, meets nothing that it makes. Links that lead nowhere
do no harm. -/
theorem clear_of_apart (hq : k.stat t q = some D) (hD : t.get D = some .dir)
    (hfree : t.get (D ++ [n]) = none) (hapart : ∀ s, k.stat t (src.down s) ≠ some D)
    (hlinks : ∀ d m p, t.get (d ++ [m]) = some (.symlink p) →
      ∀ v ∈ t.trailLink k.links d p, ¬ D ++ [n] <+: v) : Clear k t src (q.child n) := by
  rintro s m hs - ⟨⟨x, hx, hxfree⟩, hway⟩
  have hmakes : MakesDir k t src (q.child n) x := by
    rcases hway x hx (linkAt_of_none hxfree) with hdir | ⟨-, hmakes⟩
    · rw [hxfree] at hdir
      cases hdir
    · exact hmakes
  have hbelow := makesDir_below hq hD hfree hxfree hmakes
  obtain ⟨l, hl, hld⟩ := Kernel.is_dir_iff.mp hs
  rw [← Path.down_child, Path.child_eq_down, Kernel.trail_down, Kernel.locate_of_stat hl] at hx
  rcases List.mem_append.mp hx with hx | hx
  · -- what is on the way to a directory is there
    obtain ⟨d, a, rfl, hlead⟩ := Kernel.trail_leads hl hld hx
    exact get_of_leads hlead hxfree
  · simp only [Option.map_some, Option.getD_some, Path.names_cons, trailFrom] at hx
    rcases List.mem_cons.mp hx with rfl | hx
    · -- the name in the directory of the source
      rcases List.prefix_concat_iff.mp hbelow with heq | habove
      · obtain ⟨rfl, -⟩ := List.append_inj' heq rfl
        exact hapart s hl
      · obtain ⟨r, rfl⟩ := habove
        have hnone : t.get (D ++ [n] ++ r) = none := by
          by_cases hr : r = []
          · rw [hr, List.append_nil, hfree]
          · exact t.get_below hr (by simp [hfree])
        rw [hld] at hnone
        cases hnone
    · -- where a link of this name leads
      cases hlink : t.linkAt (l ++ [m]) with
      | none =>
          rw [hlink] at hx
          cases hx
      | some p =>
          rw [hlink] at hx
          rcases List.mem_append.mp hx with hx | hx
          · exact hlinks l m p (linkAt_eq_some.mp hlink) x hx hbelow
          · cases hat : t.aimLink k.links l p with
            | none => simp [hat] at hx
            | some y => simp [hat, Path.names, trailFrom] at hx

end

/-! ## A copy into its source never ends

To a free name there is nothing that could end it: below the destination there are only
the directories that it has made itself. When the next directory on the way to the
destination is always the first to be copied, it goes down that way for ever. -/

/-- The order in which the next name on the way `r` from `src` into itself comes first. -/
def inward (src : Path) (r : List String) : Order where
  of p ns :=
    let s := p.comps.drop src.comps.length
    match (Path.names r ++ s)[s.length]? with
    | some (.normal a) => if a ∈ ns then a :: ns.erase a else ns
    | _ => ns
  perm p ns := by
    simp only
    split
    · split
      · rename_i hmem
        exact (List.perm_cons_erase hmem).symm
      · exact List.Perm.refl ns
    · exact List.Perm.refl ns

theorem inward_of {src : Path} {r s ns : List String} {a : String} (hnext : s ++ [a] <+: r ++ s)
    (ha : a ∈ ns) : (inward src r).of (src.down s) ns = a :: ns.erase a := by
  obtain ⟨w, hw⟩ := hnext
  have hdrop : (src.down s).comps.drop src.comps.length = Path.names s := by simp [Path.down]
  have hget : (Path.names r ++ Path.names s)[(Path.names s).length]? = some (.normal a) := by
    have hnames : Path.names r ++ Path.names s = Path.names s ++ .normal a :: Path.names w := by
      simpa [Path.names] using congrArg Path.names hw.symm
    rw [hnames, List.getElem?_append_right (Nat.le_refl _), Nat.sub_self, List.getElem?_cons_zero]
  simp only [inward, hdrop, hget, if_pos ha]

section

variable {k : Kernel} {t u v : FileTree Bytes} {src dst : Path} {d : Loc} {r : List String}

/-- `create_dir_all` of a name of a directory that is free, or is one itself. -/
theorem create_name {q : Path} {a : String} (hq : k.stat u q = some d)
    (hd : u.get d = some .dir) (ha : u.get (d ++ [a]) = none ∨ u.get (d ++ [a]) = some .dir) :
    ∃ v, k.create_dir_all u (q.child a) = (v, none) ∧
      ∀ x, v.get x = if x = d ++ [a] then some .dir else u.get x := by
  rcases ha with ha | ha
  · have hslot : k.slot u (q.child a) = some (d, a) := Kernel.slot_child_eq_some.mpr ⟨hq, hd, rfl⟩
    obtain ⟨v, hv⟩ := Kernel.mkdir_of_free hslot ha
    refine ⟨v, by rw [Kernel.create_dir_all_child, hv], ?_⟩
    obtain ⟨d', a', hslot', -, -, hget⟩ := Kernel.mkdir_spec hv
    cases hslot.symm.trans hslot'
    exact hget
  · refine ⟨u, Kernel.create_dir_all_of_is_dir ?_, ?_⟩
    · exact Kernel.is_dir_iff.mpr ⟨_, Kernel.stat_child_of_get hq ha (by simp), ha⟩
    · intro x
      by_cases hx : x = d ++ [a]
      · rw [if_pos hx, hx, ha]
      · rw [if_neg hx]

/-- A tree on the way down: there is more than in `t`, but at the destination and below it
only directories. -/
structure Deeper (t : FileTree Bytes) (d : Loc) (u : FileTree Bytes) : Prop where
  builds : Builds t u
  bare : ∀ x, d <+: x → u.get x = none ∨ u.get x = some .dir

/-- One directory further down. -/
theorem Deeper.down (h : Deeper t d u) {s : List String} {a : String}
    (hs : k.stat u (dst.down s) = some (d ++ s)) (hd : u.get (d ++ s) = some .dir) :
    ∃ v, k.create_dir_all u (dst.down (s ++ [a])) = (v, none) ∧ Deeper t d v ∧
      k.stat v (dst.down (s ++ [a])) = some (d ++ (s ++ [a])) ∧
      v.get (d ++ (s ++ [a])) = some .dir := by
  have hbare : u.get (d ++ s ++ [a]) = none ∨ u.get (d ++ s ++ [a]) = some .dir :=
    h.bare _ (by rw [List.append_assoc]; exact List.prefix_append d _)
  obtain ⟨v, hv, hget⟩ := create_name hs hd hbare
  rw [Path.down_child] at hv
  rw [← List.append_assoc]
  have hgrown : Builds u v := by
    have hgrows := Kernel.create_dir_all_grows k u (dst.down (s ++ [a]))
    rw [hv] at hgrows
    exact hgrows.builds
  have hnew : v.get (d ++ s ++ [a]) = some .dir := by rw [hget, if_pos rfl]
  refine ⟨v, hv, ⟨h.builds.trans hgrown, ?_⟩, ?_, hnew⟩
  · intro x hx
    rw [hget]
    split
    · exact .inr rfl
    · exact h.bare x hx
  · rw [← Path.down_child]
    exact Kernel.stat_child_of_get (Kernel.stat_builds hgrown hs) hnew (by simp)

/-- **Round after round**: however much fuel there is, it does not end. -/
theorem inward_never_ends {t : FileTree Bytes} (hr : r ≠ []) (hsrc : k.stat t (src.down r) = some d)
    (hdst : k.stat t dst = some d) (fuel : Nat) {s : List String} {a : String} {c : Copying}
    (hround : s ++ [a] <+: r ++ s) (hu : Deeper t d c.tree) (hfaults : c.faults = [])
    (hway : k.is_dir c.tree (src.down (s ++ [a])) = true)
    (hs : k.stat c.tree (dst.down s) = some (d ++ s)) (hd : c.tree.get (d ++ s) = some .dir) :
    copy_recursive_seen k (inward src r) fuel (src.down (s ++ [a])) (dst.down (s ++ [a])) c =
      none := by
  induction fuel generalizing s a c with
  | zero => rfl
  | succ fuel ih =>
      obtain ⟨v, hv, hv', hs', hd'⟩ := hu.down (a := a) hs hd
      have hgrown : Builds c.tree v := by
        have hgrows := Kernel.create_dir_all_grows k c.tree (dst.down (s ++ [a]))
        rw [hv] at hgrows
        exact hgrows.builds
      have hround' : s ++ [a] <+: r ++ (s ++ [a]) := by
        rw [← List.append_assoc]
        exact hround.trans (List.prefix_append _ _)
      -- where the copy has got to is a directory of the source too, and the way goes on
      have hagain : k.is_dir v (src.down (r ++ (s ++ [a]))) = true := by
        refine Kernel.is_dir_iff.mpr ⟨_, ?_, hd'⟩
        rw [Kernel.stat_down, Kernel.stat_builds hv'.builds hdst] at hs'
        rw [← Path.down_down, Kernel.stat_down, Kernel.stat_builds hv'.builds hsrc]
        exact hs'
      obtain ⟨b, hnext⟩ := next_round hr hround'
      have hon : k.is_dir v (src.down (s ++ [a] ++ [b])) = true := by
        obtain ⟨w, hw⟩ := hnext
        rw [← hw, ← Path.down_down] at hagain
        exact Kernel.is_dir_of_down hagain
      obtain ⟨l, hl, hld⟩ := Kernel.is_dir_iff.mp (Kernel.is_dir_builds hgrown hway)
      have hb : b ∈ v.children l := mem_children_of_is_dir hl (by rwa [Path.down_child])
      have hread : read_dir k v (src.down (s ++ [a])) .none = .ok (v.children l) := by
        simp only [read_dir, Fault.errno, hl, if_pos hld]
      have hnone := ih (c := ⟨v, [], c.seen ++ [l]⟩) hnext hv' rfl hon hs' hd'
      rw [copy_recursive_seen, if_pos hway]
      simp only [hfaults, now, List.headD_nil, List.tail_nil, create_dir_all, hv, hread,
        inward_of hnext hb, hl, Option.toList_some]
      rw [copy_each_seen]
      simp only [now, List.headD_nil, Fault.errno, List.tail_nil, Path.down_child, hnone]

/-- **A copy into its own source**, to a free name, does not end, if it finds the next
directory on its way first. -/
theorem copy_into_source {q : Path} {D : Loc} {n : String} {s : List String}
    (hq : k.stat t q = some D) (hD : t.get D = some .dir) (hfree : t.get (D ++ [n]) = none)
    (hs : k.stat t (src.down s) = some D) (fuel : Nat) :
    copy_recursive_seen k (inward src (s ++ [n])) fuel src (q.child n) ⟨t, [], []⟩ = none := by
  cases fuel with
  | zero => rfl
  | succ fuel =>
      obtain ⟨v, hv, hget⟩ := create_name hq hD (.inl hfree)
      have hgrown : Builds t v := by
        have hgrows := Kernel.create_dir_all_grows k t (q.child n)
        rw [hv] at hgrows
        exact hgrows.builds
      have hnew : v.get (D ++ [n]) = some .dir := by rw [hget, if_pos rfl]
      have hdst : k.stat v (q.child n) = some (D ++ [n]) :=
        Kernel.stat_child_of_get (Kernel.stat_builds hgrown hq) hnew (by simp)
      have hsrc : k.stat v (src.down (s ++ [n])) = some (D ++ [n]) := by
        rw [← Path.down_child]
        exact Kernel.stat_child_of_get (Kernel.stat_builds hgrown hs) hnew (by simp)
      have hdeeper : Deeper v (D ++ [n]) v := by
        refine ⟨.refl v, ?_⟩
        rintro x ⟨w, rfl⟩
        by_cases hw : w = []
        · rw [hw, List.append_nil, hnew]
          exact .inr rfl
        · rw [hget, if_neg (by simpa using hw)]
          exact .inl (t.get_below hw (by simp [hfree]))
      have hroot : k.is_dir t src = true :=
        Kernel.is_dir_of_down (Kernel.is_dir_iff.mpr ⟨D, hs, hD⟩)
      obtain ⟨l, hl, hld⟩ := Kernel.is_dir_iff.mp (Kernel.is_dir_builds hgrown hroot)
      have hread : read_dir k v src .none = .ok (v.children l) := by
        simp only [read_dir, Fault.errno, hl, if_pos hld]
      obtain ⟨b, w, hbw⟩ : ∃ b w, s ++ [n] = [b] ++ w := by
        cases s with
        | nil => exact ⟨n, [], rfl⟩
        | cons b s => exact ⟨b, s ++ [n], rfl⟩
      have hnext : [] ++ [b] <+: (s ++ [n]) ++ [] := by
        rw [List.append_nil, hbw]
        exact List.prefix_append [b] w
      have hon : k.is_dir v (src.down ([] ++ [b])) = true := by
        have hend : k.is_dir v (src.down (s ++ [n])) = true :=
          Kernel.is_dir_iff.mpr ⟨_, hsrc, hnew⟩
        rw [hbw, ← Path.down_down] at hend
        exact Kernel.is_dir_of_down hend
      have hb : b ∈ v.children l := by
        refine mem_children_of_is_dir hl ?_
        rwa [List.nil_append, ← Path.child_eq_down] at hon
      have hnone := inward_never_ends (List.append_ne_nil_of_right_ne_nil s (by simp)) hsrc hdst fuel
        (c := ⟨v, [], [l]⟩) hnext hdeeper rfl hon (by rw [Path.down_nil, List.append_nil, hdst])
        (by rw [List.append_nil, hnew])
      have horder : (inward src (s ++ [n])).of (src.down []) (v.children l) =
          b :: (v.children l).erase b := inward_of hnext hb
      rw [Path.down_nil] at horder
      rw [copy_recursive_seen, if_pos hroot]
      simp only [now, List.headD_nil, List.tail_nil, create_dir_all, hv, hread, horder, hl,
        Option.toList_some, List.nil_append]
      rw [copy_each_seen]
      simp only [now, List.headD_nil, Fault.errno, List.tail_nil, Path.child_eq_down]
      rw [Path.child_eq_down q n, List.nil_append] at hnone
      rw [hnone]

end

/-! ## Trees without links -/

section

variable {k : Kernel} {t : FileTree Bytes} {src : Path}

/-- Without links a path goes straight down. -/
theorem stat_straight (hlinks : ∀ x p, t.get x ≠ some (.symlink p)) {l m : Loc}
    {s : List String} (hs : k.stat t src = some l) (hm : k.stat t (src.down s) = some m) :
    m = l ++ s := by
  induction s using List.reverseRecOn generalizing m with
  | nil =>
      rw [Path.down_nil, hs] at hm
      cases hm
      rw [List.append_nil]
  | append_singleton s n ih =>
      rw [← Path.down_child, Kernel.stat_child] at hm
      obtain ⟨u, hu, hw⟩ := Option.bind_eq_some_iff.mp hm
      have hul := ih hu
      rw [walk_normal] at hw
      cases he : t.get (u ++ [n]) with
      | none =>
          rw [he] at hw
          cases hw
      | some e =>
          rw [he] at hw
          cases e with
          | symlink p => exact absurd he (hlinks _ p)
          | dir =>
              cases hw
              rw [hul, List.append_assoc]
          | file a =>
              cases hw
              rw [hul, List.append_assoc]

theorem treelike_of_no_links (hlinks : ∀ x p, t.get x ≠ some (.symlink p)) :
    Treelike k t src := by
  refine treelike_iff.mpr ?_
  intro s r m hs hr hm
  obtain ⟨l, hl, -⟩ := Kernel.is_dir_iff.mp
    (Kernel.is_dir_of_down (Kernel.is_dir_iff.mpr ⟨m, hs, hm⟩))
  exact List.append_cancel_left ((stat_straight hlinks hl hs).symm.trans (stat_straight hlinks hl hr))

end

/-! ## The three walks -/

/-- What `copy_recursive` owes, under some pattern of failures: it ends, and it reads no
directory twice. -/
def CopyOnce (k : Kernel) (t : FileTree Bytes) (o : Order) (fs : List Fault) (src dst : Path) :
    Prop :=
  ∃ fuel c res, copy_recursive_seen k o fuel src dst ⟨t, fs, []⟩ = some (c, res) ∧ c.seen.Nodup

/-- What the three walks owe, in whatever order the names of a directory are read. -/
def WalksOnce (k : Kernel) (t : FileTree Bytes) (src dst : Path) : Prop :=
  ∀ o, FilesOnce k t o src ∧ DeletionsOnce k t o src ∧ ∀ fs, CopyOnce k t o fs src dst

/-- A free name in a directory, to which and below which no link leads. -/
def FreeName (k : Kernel) (t : FileTree Bytes) (dst : Path) : Prop :=
  ∃ q D n, dst = q.child n ∧ k.stat t q = some D ∧ t.get D = some .dir ∧
    t.get (D ++ [n]) = none ∧ ∀ d m p, t.get (d ++ [m]) = some (.symlink p) →
      ∀ v ∈ t.trailLink k.links d p, ¬ D ++ [n] <+: v

theorem copies_once {k : Kernel} {t : FileTree Bytes} {src dst : Path}
    (h : (k.create_dir_all t dst).2 = none → Treelike k t src ∧ Clear k t src dst) (o : Order)
    (fs : List Fault) : CopyOnce k t o fs src dst := by
  obtain ⟨c, res, hrun, hnodup⟩ := copy_once o fs h
  exact ⟨_, c, res, hrun, hnodup⟩

/-- To a free name a copy that never meets its output is one to a place outside the source. -/
theorem clear_of_once {k : Kernel} {t : FileTree Bytes} {src dst : Path} (hfree : FreeName k t dst)
    (h : ∀ o, CopyOnce k t o [] src dst) : Clear k t src dst := by
  obtain ⟨q, D, n, rfl, hq, hD, hn, hlinks⟩ := hfree
  refine clear_of_apart hq hD hn ?_ hlinks
  intro s hs
  obtain ⟨fuel, c, res, hrun, -⟩ := h (inward src (s ++ [n]))
  rw [copy_into_source hq hD hn hs fuel] at hrun
  cases hrun

/-- **When the walks end.** `walk_files` and `walk_delete` end and read no directory
twice just when no two entries of the directories that are reached lead to the
same directory and none leads back to the source. `copy_recursive` does where its
source is such and it makes no directory in it; and a copy that ends well
and has read no directory twice is from such a source to a place outside it. To a free
name all three do just under that condition. -/
theorem walks_once_iff (k : Kernel) (t : FileTree Bytes) (src dst : Path) :
    (∀ o, FilesOnce k t o src ↔ Treelike k t src) ∧
      (∀ o, DeletionsOnce k t o src ↔ Treelike k t src) ∧
      (((k.create_dir_all t dst).2 = none → Treelike k t src ∧ Clear k t src dst) →
        ∀ o fs, CopyOnce k t o fs src dst) ∧
      (∀ o fs fuel c, copy_recursive_seen k o fuel src dst ⟨t, fs, []⟩ = some (c, .ok ()) →
        c.seen.Nodup → Treelike k t src ∧ ¬ Inside k t src dst) ∧
      (FreeName k t dst → (WalksOnce k t src dst ↔ Treelike k t src ∧ Clear k t src dst)) := by
  refine ⟨files_once_iff, deletions_once_iff, copies_once, ?_, ?_⟩
  · intro o fs fuel c hrun hnodup
    exact copy_ok_only hrun hnodup
  · intro hfree
    constructor
    · intro h
      exact ⟨(files_once_iff Order.same).mp (h Order.same).1,
        clear_of_once hfree fun o => (h o).2.2 []⟩
    · intro h o
      exact ⟨(files_once_iff o).mpr h.1, (deletions_once_iff o).mpr h.1, copies_once (fun _ => h) o⟩

/-- A directory with a link that leads nowhere. -/
def tree_dangling : FileTree Bytes :=
  (FileTree.empty.with_ [] "a" .dir).with_ ["a"] "l" (.symlink (.abs ["nowhere"]))

theorem only_root {s : List String}
    (h : Kernel.is_dir ⟨1, [], fun _ => 0⟩ tree_dangling ((Path.abs ["a"]).down s) = true) :
    s = [] := by
  cases s with
  | nil => rfl
  | cons n s =>
      rw [← Path.child_down] at h
      have hd := Kernel.is_dir_of_down h
      have hn := mem_children_of_is_dir (l := ["a"]) (by decide) hd
      obtain rfl : n = "l" := List.mem_singleton.mp hn
      exact absurd hd (by decide)

/-- It is copied to a free name, up to the link that cannot be copied. -/
theorem walks_once_dangling :
    WalksOnce ⟨1, [], fun _ => 0⟩ tree_dangling (.abs ["a"]) (.abs ["b"]) := by
  have hlinks : ∀ d m p, tree_dangling.get (d ++ [m]) = some (.symlink p) →
      ∀ v ∈ tree_dangling.trailLink 1 d p, ¬ [] ++ ["b"] <+: v := by
    intro d m p h
    have hdom : d ++ [m] ∈ [["a", "l"], ["a"], []] := tree_dangling.mem_dom h
    rcases List.mem_cons.mp hdom with heq | hdom
    · obtain ⟨rfl, hm⟩ := List.append_inj' (show d ++ [m] = ["a"] ++ ["l"] from heq) rfl
      cases hm
      have hl : tree_dangling.get ["a", "l"] = some (.symlink (.abs ["nowhere"])) := by decide
      cases hl.symm.trans h
      decide
    · have hdir : ∀ x ∈ ([["a"], []] : List Loc), tree_dangling.get x = some .dir := by decide
      cases (hdir _ hdom).symm.trans h
  have hway : ∀ s, Kernel.stat ⟨1, [], fun _ => 0⟩ tree_dangling ((Path.abs ["a"]).down s) ≠
      some [] := by
    intro s hs
    obtain rfl := only_root (Kernel.is_dir_iff.mpr ⟨[], hs, rfl⟩)
    exact absurd hs (by decide)
  have htree : Treelike ⟨1, [], fun _ => 0⟩ tree_dangling (.abs ["a"]) := by
    refine treelike_iff.mpr ?_
    intro s r m hs hr hm
    rw [only_root (Kernel.is_dir_iff.mpr ⟨m, hs, hm⟩), only_root (Kernel.is_dir_iff.mpr ⟨m, hr, hm⟩)]
  exact ((walks_once_iff ⟨1, [], fun _ => 0⟩ tree_dangling (.abs ["a"]) (.abs ["b"])).2.2.2.2
    ⟨.abs [], [], "b", rfl, by decide, rfl, rfl, hlinks⟩).mpr
    ⟨htree, clear_of_apart (q := .abs []) (D := []) (n := "b") (by decide) rfl rfl hway hlinks⟩

/-- A directory with a link to itself. -/
def tree_cycle : FileTree Bytes :=
  (FileTree.empty.with_ [] "a" .dir).with_ ["a"] "l" (.symlink (.abs ["a"]))

/-- The walk of it never ends. -/
theorem cycle_never_ends :
    ¬ FilesOnce ⟨1, [], fun _ => 0⟩ tree_cycle .same (.abs ["a"]) := by
  rw [files_once_iff]
  intro h
  have hlink : into ⟨1, [], fun _ => 0⟩ tree_cycle ["a"] "l" = some ["a"] := by decide
  exact (h ["a"] (by decide)).start [] ["a"] "l" rfl hlink

end WebDavs.Sudo
