/-
A move does not lose what it was told to move.

The workers' books say, for every listed file, who has it: nobody yet, one
worker, or nobody any more; and in each case where it is (`Transfer`). From them
the main thread's one decision that can destroy data, to remove the source, is
seen to be taken only when every file has gone over.
-/
import WebDavs.Pool
import WebDavs.Relocate
import WebDavs.Steps

set_option autoImplicit false

namespace WebDavs.Mover

open WebDavs.Posix WebDavs.Posix.FileTree WebDavs.Steps

/-! ## Who has which file -/

/-- Where the file `f` is while a worker has it, and that a failure with it has
been counted. -/
def Worker.Holds (k : Kernel) (t : FileTree Bytes) (dst : Path) (f : Path × List String)
    (u : FileTree Bytes) (failed : Nat) : Worker → Prop
  | .measure _ => Here k t dst f u
  | .announce _ => Here k t dst f u
  | .rename _ => Here k t dst f u
  | .copy _ => Here k t dst f u
  | .remove _ => There k t dst f u
  | .report _ true => There k t dst f u
  | .note _ _ => 0 < failed
  | .report _ false => 0 < failed
  | _ => True

/-- The terms of the workers of a job: a file is here until it has gone over. -/
def terms (k : Kernel) (t : FileTree Bytes) (dst : Path) (u : FileTree Bytes) (failed : Nat) :
    Pool.Terms Worker (Path × List String) where
  waiting f := Here k t dst f u
  held w f := w.Holds k t dst f u failed
  settled f := There k t dst f u
  always f := Here k t dst f u ∨ There k t dst f u

/-- The books of the workers of a job. -/
def Books (k : Kernel) (t : FileTree Bytes) (dst : Path) (l : Listing) (u : FileTree Bytes)
    (ws : List Worker) (next failed : Nat) : Prop :=
  Pool.Books Worker.idx .stopped (terms k t dst u failed) l.files ws next failed

section

variable {k : Kernel} {t u u' : FileTree Bytes} {src dst : Path} {b : Path.Tail} {l : Listing}
variable {ws : List Worker} {next failed i : Nat} {w : Worker}
variable {f : Path × List String}

theorem Worker.Holds.keep {failed' : Nat} {g : Path × List String}
    (h : w.Holds k t dst g u failed) (hh : Here k t dst g u → Here k t dst g u')
    (ht : There k t dst g u → There k t dst g u') (hle : failed ≤ failed') :
    w.Holds k t dst g u' failed' := by
  cases w with
  | measure n => exact hh h
  | announce x => exact hh h
  | rename x => exact hh h
  | copy x => exact hh h
  | remove x => exact ht h
  | note x err => exact Nat.lt_of_lt_of_le h hle
  | report x ok =>
      cases ok with
      | true => exact ht h
      | false => exact Nat.lt_of_lt_of_le h hle
  | _ => trivial

theorem idx_unique (hn : l.files.Nodup) {n m : Nat} (h : l.files[n]? = some f)
    (h' : l.files[m]? = some f) : n = m :=
  (List.getElem?_inj (List.getElem?_eq_some_iff.mp h).1 hn).mp (h.trans h'.symm)

/-! ## Directories -/

/-- A listed directory with no listed file in it. Nothing but its own
`create_dir_all` makes its target. -/
def Bare (l : Listing) (rel : List String) : Prop := ∀ f ∈ l.files, ¬ rel <+: f.2

/-- The targets of such directories are there. -/
def Made (k : Kernel) (dst : Path) (l : Listing) (u : FileTree Bytes) : Prop :=
  ∀ rel ∈ l.dirs, Bare l rel → k.is_dir u (dst.down rel) = true

/-- A target directory stays while its way does. -/
theorem WaysKept.made (hk : WaysKept k t src dst l u) (hm : Made k dst l u)
    (hs : u.get (k.start dst) = some .dir → u'.get (k.start dst) = some .dir)
    (hv : ∀ rel ∈ l.dirs, GrowsOn (k.trail t (dst.down rel)) u u') : Made k dst l u' := by
  intro rel hr hb
  have htr : k.trail u (dst.down rel) = k.trail t (dst.down rel) := by
    refine (Kernel.locate_trail fun v hmem => hk.ways.linkAt ?_).2
    refine List.mem_append_right _ (List.mem_flatMap.mpr ⟨rel, hr, ?_⟩)
    exact List.mem_append_right _ hmem
  refine Kernel.is_dir_trail (hm rel hr hb) (by rwa [Kernel.start_down]) fun v hmem hne => ?_
  rw [htr] at hmem
  exact (hv rel hr).keeps hmem hne

theorem Touches.made (hc : Clear k t src dst b l) (hf : f ∈ l.files)
    (hk : WaysKept k t src dst l u) (ht : Touches k t dst f u u') (hm : Made k dst l u) :
    Made k dst l u' := by
  refine hk.made hm (fun hs => ?_) fun rel hr v hv => .inl ?_
  · by_contra hch
    exact (ht _ (by rw [hs]; exact hch)).1 hs
  · by_contra hch
    obtain ⟨-, he | ⟨hw, -⟩⟩ := ht v hch
    · exact (hc.off rel (List.mem_append_right _ hr) v hv).1 f hf he
    · refine (hc.own f hf v hw).1 (List.mem_append_right _ (List.mem_flatMap.mpr ⟨rel, hr, ?_⟩))
      exact List.mem_append_right _ hv

/-! ## What is saved -/

/-- Every listed regular file, with what it held, and every listed directory is
at its path below the source or at its target. -/
def Saved (k : Kernel) (t : FileTree Bytes) (src dst : Path) (l : Listing) (u : FileTree Bytes) :
    Prop :=
  (∀ f ∈ l.files, ∀ bs, k.lstat t f.1 = some (.file bs) →
    k.read u f.1 = some bs ∨ k.read u (dst.down f.2) = some bs) ∧
  ∀ rel ∈ l.dirs, k.is_dir u (src.down rel) = true ∨ k.is_dir u (dst.down rel) = true

theorem There.read (h : There k t dst f u) {bs : Bytes}
    (hb : k.lstat t f.1 = some (.file bs)) : k.read u (dst.down f.2) = some bs := by
  rw [Kernel.lstat_eq] at hb
  obtain ⟨s, hs, hget⟩ := Option.bind_eq_some_iff.mp hb
  obtain ⟨x, hx, hxb, -⟩ := h.content s bs hs hget
  exact Kernel.read_eq_some.mpr ⟨x, hx, hxb⟩

theorem Here.read (hl : IsListing k t src l) (hf : f ∈ l.files) (hk : WaysKept k t src dst l u)
    (h : Here k t dst f u) {bs : Bytes} (hb : k.lstat t f.1 = some (.file bs)) :
    k.read u f.1 = some bs := by
  obtain ⟨q, d, n, e, hq, hs, -, -, he, -, hent, -⟩ := entry_of_file hl hf
  rw [Kernel.lstat_eq, hent] at hb
  have hu : u.get (d ++ [n]) = some (.file bs) := (h.entry _ hent).trans hb
  have hsu := hk.slot hf hs
  rw [hq] at hsu ⊢
  obtain ⟨hst, -⟩ := Kernel.slot_child_eq_some.mp hsu
  exact Kernel.read_eq_some.mpr ⟨_, Kernel.stat_child_of_get hst hu (by simp), hu⟩

/-- While the source stands nothing is lost. -/
theorem saved_before (hl : IsListing k t src l) (hk : WaysKept k t src dst l u)
    (hall : ∀ f ∈ l.files, Here k t dst f u ∨ There k t dst f u) : Saved k t src dst l u := by
  refine ⟨fun f hf bs hb => ?_, fun rel hr => .inl (hk.src_dir hl hr)⟩
  rcases hall f hf with h | h
  · exact .inl (h.read hl hf hk hb)
  · exact .inr (h.read hb)

/-- Once everything has gone over the source may go. -/
theorem saved_after (hl : IsListing k t src l) (hall : ∀ f ∈ l.files, There k t dst f u)
    (hm : Made k dst l u) : Saved k t src dst l u := by
  refine ⟨fun f hf bs hb => .inr ((hall f hf).read hb), fun rel hr => .inr ?_⟩
  by_cases hb : Bare l rel
  · exact hm rel hr hb
  · -- a file below it is over, so its directory has been made
    obtain ⟨f, hf⟩ := not_forall.mp hb
    rw [Classical.not_imp, not_not] at hf
    obtain ⟨hf, s, hs⟩ := hf
    obtain ⟨q, n, hq, hd⟩ := (hall f hf).parent
    rcases List.eq_nil_or_concat s with rfl | ⟨s, m, rfl⟩
    · -- a listed file is no listed directory
      obtain ⟨hsf, hnd, -⟩ := hl.file hf
      rw [List.append_nil] at hs
      rw [hsf, ← hs, hl.dir hr] at hnd
      cases hnd
    · rw [List.concat_eq_append, ← List.append_assoc] at hs
      rw [← hs, ← Path.down_child] at hq
      have hp := congrArg Path.parent hq
      rw [Path.parent_child, Path.parent_child] at hp
      rw [← Option.some.inj hp, ← Path.down_down] at hd
      exact Kernel.is_dir_of_down hd

/-- The source names the entry it named at the start. -/
theorem WaysKept.entry_src (hl : IsListing k t src l) (hk : WaysKept k t src dst l u) :
    k.entry_at u src = k.entry_at t src := by
  rcases hl.root with hf | hr
  · obtain ⟨-, d, n, -, -, hs, -, -, -, -, hent, -⟩ := entry_of_file hl hf
    rw [Kernel.entry_at_of_slot (hk.slot hf hs)]
    exact hent.symm
  · obtain ⟨x, hx, -⟩ := Kernel.is_dir_iff.mp (hl.dir hr)
    rw [Path.down_nil] at hx
    have hway : ∀ v ∈ k.trail t src, t.get v ≠ none → u.get v = t.get v := fun v hv hne => by
      refine hk.ways.keeps (List.mem_append_right _ (List.mem_flatMap.mpr ⟨[], hr, ?_⟩)) hne
      rw [Path.down_nil]
      exact List.mem_append_left _ hv
    cases hs : k.slot t src with
    | some s =>
        obtain ⟨d, n⟩ := s
        have hsu := @Kernel.slot_trail _ k t u src d n hs (hk.dirs _) fun q hq v hv =>
          hway v (by rw [hq]; exact k.trail_subset_child t q n hv)
        rw [Kernel.entry_at_of_slot hs, Kernel.entry_at_of_slot hsu]
    | none =>
        have hxu := (Kernel.stat_trail hx (hk.dirs _) hway).1
        cases hsu : k.slot u src with
        | none => rw [Kernel.entry_at_of_stat hx hs, Kernel.entry_at_of_stat hxu hsu]
        | some s =>
            -- a path that ends in no name has no slot in any tree
            obtain ⟨d, n⟩ := s
            obtain ⟨q, hq, -⟩ := Kernel.slot_spec hsu
            rw [hq] at hx hs
            rw [Kernel.stat_child] at hx
            obtain ⟨y, hy, hw⟩ := Option.bind_eq_some_iff.mp hx
            by_cases hyd : t.get y = some .dir
            · rw [Kernel.slot_child_eq_some.mpr ⟨hy, hyd, rfl⟩] at hs
              cases hs
            · rw [walk_normal, t.get_below (List.cons_ne_nil n []) hyd] at hw
              cases hw

/-- ... and what is looked at under its name is what was looked at. -/
theorem WaysKept.entry_tailed (hl : IsListing k t src l) (hb : b = .none ∨ k.is_dir t src = true)
    (hk : WaysKept k t src dst l u) : k.entry_at u (src.tailed b) = k.entry_at t (src.tailed b) := by
  by_cases hn : b = .none
  · rw [hn, Path.tailed_none]
    exact hk.entry_src hl
  · obtain ⟨x, hx, hxd⟩ := Kernel.is_dir_iff.mp (hb.resolve_left hn)
    have hroot : [] ∈ l.dirs := by
      refine hl.root.resolve_left fun hf => ?_
      obtain ⟨-, hnd, -⟩ := hl.file hf
      rw [hb.resolve_left hn] at hnd
      cases hnd
    have hxu := (Kernel.stat_trail hx (hk.dirs _) fun v hv hne => by
      refine hk.ways.keeps (List.mem_append_right _ (List.mem_flatMap.mpr ⟨[], hroot, ?_⟩)) hne
      rw [Path.down_nil]
      exact List.mem_append_left _ hv).1
    rw [Path.tailed_of_ne hn, Kernel.entry_at_dotted, Kernel.entry_at_dotted,
      Kernel.stat_dotted_eq_some.mpr ⟨hx, hxd⟩, Kernel.stat_dotted_eq_some.mpr ⟨hxu, hk.dirs x hxd⟩]

/-- Removing the source takes nothing of what has gone over. -/
theorem saved_removed (hc : Clear k t src dst b l) (hl : IsListing k t src l)
    (hb : b = .none ∨ k.is_dir t src = true) (hk : WaysKept k t src dst l u) (hm : Made k dst l u)
    (hall : ∀ f ∈ l.files, There k t dst f u) (fault : Fault) :
    Saved k t src dst l (remove_dir_all_at k u src b fault).1 := by
  have hent := hk.entry_tailed hl hb
  have hsame : ∀ v, (∀ s, k.entry_at t (src.tailed b) = some s → ¬ s <+: v) →
      (remove_dir_all_at k u src b fault).1.get v = u.get v := by
    intro v hv
    rcases remove_dir_all_at_get k u src b fault v with h | ⟨-, s, hs, hsv⟩
    · exact h
    · rw [hent] at hs
      exact absurd hsv (hv s hs)
  have hstart := hsame _ hc.start.2
  have hway : ∀ rel ∈ l.files.map Prod.snd ++ l.dirs,
      GrowsOn (k.trail t (dst.down rel)) u (remove_dir_all_at k u src b fault).1 :=
    fun rel hr v hv => .inl (hsame v (hc.off rel hr v hv).2)
  refine saved_after hl (fun f hf => ?_) ?_
  · exact (hall f hf).keep hk hf (fun h => hstart.trans h)
      (hway f.2 (List.mem_append_left _ (List.mem_map_of_mem hf)))
  · exact hk.made hm (fun h => hstart.trans h) fun rel hr => hway rel (List.mem_append_right _ hr)

/-- One rename takes everything over. -/
theorem saved_renamed (hl : IsListing k t src l) (hx : k.exists_ t dst = false)
    (hr : k.rename t src dst = .ok u) (hM : Movable k t u src dst l) : Saved k t src dst l u := by
  obtain ⟨d, n, d', n', e, hs, hs', he, hd', -, hcase⟩ := Kernel.rename_spec hr
  rcases hcase with ⟨-, rfl⟩ | ⟨hne, hout, hdir, -, hget⟩
  · exact saved_before hl WaysKept.refl fun f _ => .inl ⟨fun _ _ => rfl, fun _ _ => rfl⟩
  have hfree : k.is_dir t dst = false := by
    rw [Bool.eq_false_iff]
    intro hd
    obtain ⟨x, hxs, -⟩ := Kernel.is_dir_iff.mp hd
    rw [Kernel.exists_, hxs] at hx
    cases hx
  have htaken : Taken k t u src dst d n d' n' :=
    ⟨hs, hs', hne, hout, hget, hfree, fun _ => Kernel.link_of_not_exists hs' hx⟩
  refine ⟨fun f hf bs hb => .inr (htaken.file hl hM hf hb), fun rel hrel => .inr ?_⟩
  obtain ⟨x, -, hxd, hxu⟩ := htaken.dir hl hM hrel
  refine Kernel.is_dir_iff.mpr ⟨_, hxu, htaken.get_relocated hxd (htaken.not_in_way hxd (by simp))⟩

/-! ## The run of a job -/

/-- What a call of a worker keeps. -/
theorem work_keeps (hc : Clear k t src dst b l) (hl : IsListing k t src l) {r : Runner}
    (hdst : r.dst = dst) {fault : Fault} {y : FileTree Bytes × Job × Nat × Nat × Worker}
    (hk : WaysKept k t src dst l u) (hm : Made k dst l u) (hB : Books k t dst l u ws next failed)
    (hw : ws[i]? = some w) (hy : Runner.WorkCase k u r l next failed fault w y) :
    WaysKept k t src dst l y.1 ∧ Made k dst l y.1 ∧
      Books k t dst l y.1 (ws.set i y.2.2.2.2) y.2.2.1 y.2.2.2.1 := by
  subst hdst
  -- a call that changes the tree is a transfer of the file the worker has
  have hmove : ∀ (n : Nat) (f : Path × List String) (u' : FileTree Bytes) (w' : Worker)
      (failed' : Nat), w.idx = some n → l.files[n]? = some f → w'.idx = some n →
      failed ≤ failed' → Touches k t r.dst f u u' → w'.Holds k t r.dst f u' failed' →
      (Here k t r.dst f u' ∨ There k t r.dst f u') →
      WaysKept k t src r.dst l u' ∧ Made k r.dst l u' ∧
        Books k t r.dst l u' (ws.set i w') next failed' := by
    intro n f u' w' failed' hn hf hn' hle ht hhold hall
    have hmem := List.mem_of_getElem? hf
    refine ⟨ht.kept hc hl hmem hk, ht.made hc hmem hk hm, ?_⟩
    refine hB.hold hw hn hf hn' rfl hle hhold hall fun m g hmn hg => ?_
    have hgm := List.mem_of_getElem? hg
    have hne : g ≠ f := by
      rintro rfl
      exact hmn (idx_unique hc.nodup hg hf)
    have hh := ht.here hc hmem hgm hne
    have hth := ht.there hc hmem hgm hne hk
    exact ⟨hh, fun w h => h.keep hh hth hle, hth, Or.imp hh hth⟩
  have hstill : ∀ f, Touches k t r.dst f u u := fun f x hx => absurd rfl hx
  -- where the file is that the worker has
  have hhas : ∀ n, w.idx = some n → ∀ f, l.files[n]? = some f →
      w.Holds k t r.dst f u failed ∧ (Here k t r.dst f u ∨ There k t r.dst f u) := by
    intro n hn f hf
    obtain ⟨-, g, hg, hh⟩ := hB.held i _ _ hw hn
    rw [hf] at hg
    cases hg
    exact ⟨hh, hB.always f (List.mem_of_getElem? hf)⟩
  cases hy with
  | drained hnone => exact ⟨hk, hm, hB.drained hw rfl rfl hnone⟩
  | taken g hf => exact ⟨hk, hm, hB.taken hw rfl hf rfl rfl id⟩
  | measured idx sf rel hf =>
      obtain ⟨hhere, hall⟩ := hhas idx rfl _ hf
      exact hmove idx (sf, rel) u (.announce ⟨idx, _⟩) failed rfl hf rfl (Nat.le_refl _)
        (hstill _) hhere hall
  | announced task sf rel hf =>
      obtain ⟨hhere, hall⟩ := hhas task.idx rfl _ hf
      have hhere' : Here k t r.dst (sf, rel) u := hhere
      refine hmove task.idx (sf, rel) u (r.first task) failed rfl hf ?_ (Nat.le_refl _)
        (hstill _) ?_ hall
      · by_cases hfirst : r.op = .move ∧ r.same_drive = true
        · simp [Runner.first, hfirst, Worker.idx]
        · simp [Runner.first, hfirst, Worker.idx]
      · by_cases hfirst : r.op = .move ∧ r.same_drive = true
        · simpa [Runner.first, hfirst, Worker.Holds] using hhere'
        · simpa [Runner.first, hfirst, Worker.Holds] using hhere'
  | renamed task sf rel u' hf hr =>
      obtain ⟨hh, -⟩ := hhas task.idx rfl _ hf
      obtain ⟨ht, hth⟩ := transfer_renamed hc hl (List.mem_of_getElem? hf) hk hh hr
      exact hmove task.idx (sf, rel) u' (.report task true) failed rfl hf rfl (Nat.le_refl _) ht
        hth (.inr hth)
  | unrenamed task sf rel e hf hr =>
      obtain ⟨hh, hall⟩ := hhas task.idx rfl _ hf
      by_cases hfb : falls_back e = true
      · simp only [hfb, if_true]
        exact hmove task.idx (sf, rel) u (.copy task) failed rfl hf rfl (Nat.le_refl _)
          (hstill _) hh hall
      · simp only [hfb]
        exact hmove task.idx (sf, rel) u (.fail task (some e)) failed rfl hf rfl (Nat.le_refl _)
          (hstill _) trivial hall
  | copied task sf rel u' m hf hcp =>
      obtain ⟨hh, -⟩ := hhas task.idx rfl _ hf
      obtain ⟨ht, -, hok⟩ := transfer_copied hc hl (List.mem_of_getElem? hf) hk hh hcp
      have hth := hok m rfl
      by_cases hop : r.op = .move
      · simp only [hop, if_true]
        exact hmove task.idx (sf, rel) u' (.remove task) failed rfl hf rfl (Nat.le_refl _) ht hth
          (.inr hth)
      · simp only [hop, if_false]
        exact hmove task.idx (sf, rel) u' (.report task true) failed rfl hf rfl (Nat.le_refl _) ht
          hth (.inr hth)
  | uncopied task sf rel u' e hf hcp =>
      obtain ⟨hh, -⟩ := hhas task.idx rfl _ hf
      obtain ⟨ht, hh', -⟩ := transfer_copied hc hl (List.mem_of_getElem? hf) hk hh hcp
      exact hmove task.idx (sf, rel) u' (.fail task (some e)) failed rfl hf rfl (Nat.le_refl _) ht
        trivial (.inl hh')
  | removed task sf rel u' hf hr =>
      obtain ⟨hth, -⟩ := hhas task.idx rfl _ hf
      obtain ⟨ht, hth'⟩ := transfer_removed hc hl (List.mem_of_getElem? hf) hk hth hr
      exact hmove task.idx (sf, rel) u' (.report task true) failed rfl hf rfl (Nat.le_refl _) ht
        hth' (.inr hth')
  | unremoved task sf rel e hf hr =>
      obtain ⟨-, hall⟩ := hhas task.idx rfl _ hf
      exact hmove task.idx (sf, rel) u (.fail task none) failed rfl hf rfl (Nat.le_refl _)
        (hstill _) trivial hall
  | failed task err =>
      obtain ⟨-, g, hg, -⟩ := hB.held i _ _ hw rfl
      exact hmove task.idx g u (.note task err) (failed + 1) rfl hg rfl (Nat.le_succ _) (hstill _)
        (Nat.succ_pos _) (hB.always g (List.mem_of_getElem? hg))
  | noted task err e =>
      obtain ⟨-, g, hg, hcount⟩ := hB.held i _ _ hw rfl
      exact hmove task.idx g u (.report task false) failed rfl hg rfl (Nat.le_refl _) (hstill _)
        hcount (hB.always g (List.mem_of_getElem? hg))
  | reported task ok =>
      refine ⟨hk, hm, hB.reported hw rfl rfl (by simp) (Nat.le_refl _) fun f hf hh => ?_⟩
      cases ok with
      | true => exact .inr hh
      | false => exact .inl hh

/-- What a walk of the job lists: of a path with something behind its last name, only a
directory. -/
def Walked (k : Kernel) (t : FileTree Bytes) (src : Path) (b : Path.Tail) (l : Listing) : Prop :=
  IsListing k t src l ∧ (b = .none ∨ k.is_dir t src = true)

/-- The first `n` listed directories have been made. -/
structure Prepared (k : Kernel) (t : FileTree Bytes) (src dst : Path) (b : Path.Tail) (l : Listing)
    (u : FileTree Bytes) (n : Nat) : Prop where
  clear : Clear k t src dst b l
  kept : WaysKept k t src dst l u
  here : ∀ f ∈ l.files, Here k t dst f u
  made : ∀ m rel, m < n → l.dirs[m]? = some rel → Bare l rel → k.is_dir u (dst.down rel) = true

/-- What holds in each phase. `b` and `c` are what is behind the last names of the two
paths. -/
def At (k : Kernel) (t : FileTree Bytes) (src dst : Path) (b c : Path.Tail) (u : FileTree Bytes) :
    Phase → Prop
  | .queued => u = t
  | .walking => u = t
  | .checking l => u = t ∧ Walked k t src b l
  | .renaming l => u = t ∧ Walked k t src b l ∧ k.exists_ t (dst.tailed c) = false
  | .making l n => Walked k t src b l ∧ (n = 0 → u = t) ∧ (0 < n → Prepared k t src dst b l u n)
  | .working l ws next failed => Walked k t src b l ∧ Clear k t src dst b l ∧
      WaysKept k t src dst l u ∧ Made k dst l u ∧ Books k t dst l u ws next failed
  | .cleaning l failed => Walked k t src b l ∧ Clear k t src dst b l ∧ WaysKept k t src dst l u ∧
      Made k dst l u ∧ (∀ f ∈ l.files, Here k t dst f u ∨ There k t dst f u) ∧
      (failed = 0 → ∀ f ∈ l.files, There k t dst f u)
  | .ending => ∀ l, IsListing k t src l → Saved k t src dst l u
  | .finished => ∀ l, IsListing k t src l → Saved k t src dst l u

/-- A job as a machine of its own: nothing else touches the tree. -/
def alone (k : Kernel) (s : FileTree Bytes × Runner) (e : Event) : Option (FileTree Bytes × Runner) :=
  Runner.step k s.1 s.2 e

/-- The invariant of a job that runs alone. -/
structure Inv (k : Kernel) (t : FileTree Bytes) (src dst : Path) (b c : Path.Tail)
    (s : FileTree Bytes × Runner) : Prop where
  src_eq : s.2.src = src
  dst_eq : s.2.dst = dst
  src_tail : s.2.src_tail = b
  dst_tail : s.2.dst_tail = c
  crew : 0 < s.2.nthreads
  phase : At k t src dst b c s.1 s.2.phase

/-- No `create_dir_all` fails for a directory in which there is no file to bring
the failure to light. -/
def MakesBare (k : Kernel) (s : FileTree Bytes × Runner) (e : Event) : Prop :=
  ∀ l n rel f, s.2.phase = .making l n → e = .main f → l.dirs[n]? = some rel → Bare l rel →
    (create_dir_all k s.1 (target_path s.2.dst rel)
      (f.create_dir_all_at k s.1 (target_path s.2.dst rel) (s.2.target_tail rel))).2 = none

/-- **What a move asks of the tree** it finds: where the whole goes over in one rename, that
it can; where the files are to go one by one, that they keep clear of each other and of the
source; and that `MakesBare`. -/
structure Careful (k : Kernel) (s : FileTree Bytes × Runner) (e : Event) : Prop where
  whole : ∀ l f u, s.2.phase = .renaming l → e = .main f →
    rename k s.1 s.2.src s.2.dst (f.rename_at k s.1 s.2.src s.2.src_tail s.2.dst s.2.dst_tail) =
      .ok u →
      Movable k s.1 u s.2.src s.2.dst l
  clear : ∀ l, s.2.phase = .making l 0 → Clear k s.1 s.2.src s.2.dst s.2.src_tail l
  bare : MakesBare k s e

/-- Before the first directory is made nothing has changed. -/
theorem prepared_of_making {c : Path.Tail} {s : FileTree Bytes × Runner} {n : Nat}
    (h : Inv k t src dst b c s) (hp : s.2.phase = .making l n)
    (hc : ∀ l, s.2.phase = .making l 0 → Clear k s.1 s.2.src s.2.dst s.2.src_tail l) :
    Prepared k t src dst b l s.1 n := by
  have hat := h.phase
  rw [hp] at hat
  obtain ⟨-, hzero, hready⟩ := hat
  rcases Nat.eq_zero_or_pos n with rfl | hn
  · have hcl := hc l hp
    rw [hzero rfl, h.src_eq, h.dst_eq, h.src_tail] at hcl
    rw [hzero rfl]
    exact ⟨hcl, WaysKept.refl, fun _ _ => ⟨fun _ _ => rfl, fun _ _ => rfl⟩, fun m _ hm => by omega⟩
  · exact hready hn

/-- One event of the job keeps the invariant. -/
theorem inv_step {c : Path.Tail} {s s' : FileTree Bytes × Runner} {e : Event}
    (h : Inv k t src dst b c s) (he : Careful k s e) (hs : alone k s e = some s') :
    Inv k t src dst b c s' := by
  have hready := fun l n hp => prepared_of_making (l := l) (n := n) h hp he.clear
  obtain ⟨u, r⟩ := s
  obtain ⟨hsrc, hdst, hbt, hct, hcrew, hat⟩ := h
  -- whatever the step is, the job's own data stay
  have hinv : ∀ (u' : FileTree Bytes) (p : Phase) (job : Job), At k t src dst b c u' p →
      Inv k t src dst b c (u', { r with phase := p, job := job }) := fun u' p job hp =>
    ⟨hsrc, hdst, hbt, hct, hcrew, hp⟩
  dsimp only at hsrc hdst hbt hct hcrew hat hready
  cases Runner.step_cases hs with
  | started f hp =>
      rw [hp] at hat
      exact hinv _ _ _ hat
  | unwalked ev e' hp =>
      rw [hp] at hat
      refine hinv _ _ _ fun l hl => ?_
      rw [show u = t from hat]
      exact saved_before hl WaysKept.refl fun f _ => .inl ⟨fun _ _ => rfl, fun _ _ => rfl⟩
  | walked fuel l hp hw hb =>
      rw [hp] at hat
      have hut : u = t := hat
      subst hut
      rw [hsrc, hbt] at hb
      exact hinv _ _ _ ⟨rfl, ⟨fuel, hsrc ▸ hw⟩, hb⟩
  | checked_fast f l hp hop hsd hx =>
      rw [hp] at hat
      obtain ⟨rfl, hl⟩ := hat
      rw [hdst, hct] at hx
      exact hinv _ _ r.job ⟨rfl, hl, hx⟩
  | checked_slow f l hp =>
      rw [hp] at hat
      obtain ⟨rfl, hl⟩ := hat
      exact hinv _ _ r.job ⟨hl, fun _ => rfl, fun hn => absurd hn (by omega)⟩
  | renamed_tree f l u' hp hr hb hok =>
      rw [hp] at hat
      obtain ⟨rfl, ⟨hl, -⟩, hx⟩ := hat
      have hM := he.whole l f u' hp rfl hok
      have hfree := not_exists_of_rename_at (by rwa [hdst, hct]) hok
      rw [hsrc, hdst] at hr hM
      rw [hdst] at hfree
      refine hinv _ _ _ fun l' hl' => ?_
      obtain rfl := hl.det hl'
      exact saved_renamed hl hfree hr hM
  | unrenamed_tree f l hp =>
      rw [hp] at hat
      obtain ⟨rfl, hl, -⟩ := hat
      exact hinv _ _ r.job ⟨hl, fun _ => rfl, fun hn => absurd hn (by omega)⟩
  | made f l n rel hp hn =>
      obtain ⟨hc, hk, hh, hm⟩ := hready l n hp
      rw [hp] at hat
      obtain ⟨hl, -⟩ := hat
      have hg := create_dir_all_grows k u (r.dst.down rel)
        (f.create_dir_all_at k u (r.dst.down rel) (r.target_tail rel))
      refine hinv _ _ _ ⟨hl, fun hn0 => absurd hn0 (by omega), fun _ => ⟨hc, hk.grows hg,
        fun g hg' => (hh g hg').grows hl.1 hg' hg, ?_⟩⟩
      intro m rel' hlt hrel hb
      by_cases hmn : m = n
      · subst hmn
        rw [hn] at hrel
        cases hrel
        have hok := he.bare l m rel f hp rfl hn hb
        rw [target_path_eq] at hok
        rw [← hdst]
        refine create_dir_all_is_dir ?_ hok
        rw [Kernel.start_down, hdst]
        exact hk.dirs _ hc.start.1
      · exact Kernel.is_dir_extends hg.extends (hm m rel' (by omega) hrel hb)
  | spawned f l n hp hn =>
      obtain ⟨hc, hk, hh, hm⟩ := hready l n hp
      rw [hp] at hat
      obtain ⟨hl, -⟩ := hat
      refine hinv _ _ r.job ⟨hl, hc, hk, ?_, Pool.Books.start hcrew rfl (by simp) hh
        fun f hf => .inl (hh f hf)⟩
      intro rel hr hb
      obtain ⟨m, hrel⟩ := List.mem_iff_getElem?.mp hr
      have hlt := (List.getElem?_eq_some_iff.mp hrel).1
      have hlen := List.getElem?_eq_none_iff.mp hn
      exact hm m rel (by omega) hrel hb
  | worked i f l ws next failed worker y hp hw hy =>
      rw [hp] at hat
      obtain ⟨hl, hc, hk, hm, hB⟩ := hat
      obtain ⟨hk', hm', hB'⟩ := work_keeps hc hl.1 hdst hk hm hB hw hy
      exact hinv _ _ _ ⟨hl, hc, hk', hm', hB'⟩
  | joined f l ws next failed hp hws =>
      rw [hp] at hat
      obtain ⟨hl, hc, hk, hm, hB⟩ := hat
      refine hinv _ _ r.job ⟨hl, hc, hk, hm, hB.always, ?_⟩
      rintro rfl g hg
      exact hB.over rfl hws hg
  | cleaned f l hp hop =>
      rw [hp] at hat
      obtain ⟨⟨hl, hb⟩, hc, hk, hm, -, hall⟩ := hat
      refine hinv _ _ r.job fun l' hl' => ?_
      obtain rfl := hl.det hl'
      rw [hsrc, hbt]
      exact saved_removed hc hl hb hk hm (hall rfl) f
  | kept f l failed hp hnc =>
      rw [hp] at hat
      obtain ⟨⟨hl, -⟩, -, hk, -, hall, -⟩ := hat
      refine hinv _ _ r.job fun l' hl' => ?_
      obtain rfl := hl.det hl'
      exact saved_before hl hk hall
  | ended f hp =>
      rw [hp] at hat
      exact hinv _ _ _ hat

/-- A move that is clear of itself from the start, and can go over in one rename, is
careful as long as no `create_dir_all` fails for a bare directory. -/
theorem reach_careful {c : Path.Tail} (hC : ∀ l, IsListing k t src l → Clear k t src dst b l)
    (hM : ∀ l v, IsListing k t src l → k.rename t src dst = .ok v → Movable k t v src dst l)
    {s s' : FileTree Bytes × Runner} (hs : Inv k t src dst b c s)
    (h : Reach (alone k) (MakesBare k) s s') :
    Reach (alone k) (Careful k) s s' ∧ Inv k t src dst b c s' := by
  induction h with
  | start => exact ⟨.start, hs⟩
  | @next v v' e _ he hstep ih =>
      obtain ⟨hreach, hinv⟩ := ih
      have ⟨hsrc, hdst, hbt, _, _, hat⟩ := hinv
      have hcareful : Careful k v e := by
        refine ⟨fun l f u hp _ hok => ?_, fun l hp => ?_, he⟩
        · rw [hp] at hat
          obtain ⟨hv, ⟨hl, -⟩, -⟩ := hat
          rw [hv, hsrc, hdst]
          rw [hv, hsrc, hdst] at hok
          exact hM l u hl (rename_ok hok)
        · rw [hp] at hat
          obtain ⟨⟨hl, -⟩, hv, -⟩ := hat
          rw [hv rfl, hsrc, hdst, hbt]
          exact hC l hl
      exact ⟨hreach.next hcareful hstep, inv_step hinv hcareful hstep⟩

end

/-! ## Moves lose nothing -/

/-- **A move loses nothing** that gets in nobody's way. Wherever the request
handler has it go, whatever the schedule of its workers, and whichever calls
fail: when it is done, every file and directory the walk listed is at its path
below the source or at its target, provided that each step finds the tree as `Careful`
asks. -/
theorem move_saves (k : Kernel) (h : Host) (t : FileTree Bytes) (src final_dst : PathBuf)
    (s : FileTree Bytes × Runner)
    (hrun : Reach (alone k) (Careful k) (t, spawn h .move src final_dst) s)
    (hend : s.2.phase = .finished) (l : Listing) (hl : IsListing k t src.path l) :
    Saved k t src.path final_dst.path l s.1 := by
  have hinv : Inv k t src.path final_dst.path src.tail final_dst.tail s :=
    hrun.inv ⟨rfl, rfl, rfl, rfl, h.nthreads_pos, show At k t _ _ _ _ t .queued from rfl⟩
      fun s e s' hs he hstep => inv_step hs he hstep
  have hat := hinv.phase
  rw [hend] at hat
  exact hat l hl

/-- `MakesBare`, as a test. -/
def makes_bare (k : Kernel) (s : FileTree Bytes × Runner) (e : Event) : Bool :=
  match s.2.phase, e with
  | .making l n, .main f =>
    match l.dirs[n]? with
    | some rel => l.files.any (fun g => rel.isPrefixOf g.2) ||
        (create_dir_all k s.1 (target_path s.2.dst rel)
          (f.create_dir_all_at k s.1 (target_path s.2.dst rel) (s.2.target_tail rel))).2.isNone
    | none => true
  | _, _ => true

theorem makes_bare_spec {k : Kernel} {s : FileTree Bytes × Runner} {e : Event}
    (h : makes_bare k s e = true) : MakesBare k s e := by
  intro l n rel f hp he hn hb
  subst he
  simp only [makes_bare, hp, hn, Bool.or_eq_true, List.any_eq_true, List.isPrefixOf_iff_prefix,
    Option.isNone_iff_eq_none] at h
  rcases h with ⟨g, hg, hpre⟩ | h
  · exact absurd hpre (hb g hg)
  · exact h

/-- A directory with a file and an empty directory in it. -/
def tree_a : FileTree Bytes :=
  ((FileTree.empty.with_ [] "a" .dir).with_ ["a"] "f" (.file [1])).with_ ["a"] "e" .dir

/-- It is moved to a free name, the rename of the whole being refused: the file
and the empty directory are saved. -/
theorem move_saves_tree : ∃ (s : FileTree Bytes × Runner) (l : Listing),
    s.2.phase = .finished ∧ IsListing box tree_a (.abs ["a"]) l ∧ l.files.length = 1 ∧
      l.dirs.length = 2 ∧ Saved box tree_a (.abs ["a"]) (.abs ["b"]) l s.1 := by
  let l : Listing := ⟨[(.abs ["a", "f"], ["f"])], [[], ["e"]], 1⟩
  have hl : IsListing box tree_a (.abs ["a"]) l := ⟨3, by decide⟩
  have hsrc : box.entry_at tree_a (.abs ["a"]) = some ["a"] := by decide
  have hplain : ∀ x, tree_a.linkAt x = none := fun x => linkAt_of_no_links (by decide) x
  have hout : ∀ v : Loc, ¬ ["a"] <+: v → ∀ s, box.entry_at tree_a (.abs ["a"]) = some s →
      ¬ s <+: v := by
    intro v hv s hs
    rw [hsrc] at hs
    cases hs
    exact hv
  have hclear : ∀ l', IsListing box tree_a (.abs ["a"]) l' →
      Clear box tree_a (.abs ["a"]) (.abs ["b"]) .none l' := by
    intro l' hl'
    obtain rfl := hl.det hl'
    refine ⟨by decide, ?_, by decide, ⟨by decide, hout _ (by decide)⟩⟩
    intro rel hrel v hv
    have : (∀ f ∈ l.files, box.entry_at tree_a f.1 ≠ some v) ∧ ¬ ["a"] <+: v := by
      revert rel v
      decide
    exact ⟨this.1, hout v this.2⟩
  have hmovable : ∀ l' v, IsListing box tree_a (.abs ["a"]) l' →
      box.rename tree_a (.abs ["a"]) (.abs ["b"]) = .ok v →
        Movable box tree_a v (.abs ["a"]) (.abs ["b"]) l' := by
    intro l' v _ _
    refine .of_plain (fun s hs => hout _ (by decide) s hs) (fun s hs v hv => hout v ?_ s hs)
      fun rel d n _ => hplain _
    revert v
    decide
  have hrun : (exec_if (alone box) (makes_bare box)
      (tree_a, spawn box_host .move (.abs ["a"]) (.abs ["b"]))
      [.main .none, .walk 3, .main .none, .main (.error .exdev), .main .none, .main .none,
        .main .none, .worker 0 .none, .worker 0 .none, .worker 0 .none, .worker 0 .none,
        .worker 0 .none, .worker 0 .none, .main .none, .main .none,
        .main .none]).map (fun s => s.2.phase) = some .finished := by
    decide
  obtain ⟨s, hs, hend⟩ := Option.map_eq_some_iff.mp hrun
  have hinv : Inv box tree_a (.abs ["a"]) (.abs ["b"]) .none .none
      (tree_a, spawn box_host .move (.abs ["a"]) (.abs ["b"])) :=
    ⟨rfl, rfl, rfl, rfl, box_host.nthreads_pos, show At box tree_a _ _ _ _ tree_a .queued from rfl⟩
  have hreach := (reach_careful hclear hmovable hinv
    (reach_of_exec_if (fun _ _ h => makes_bare_spec h) hs)).1
  exact ⟨s, l, hend, hl, rfl, rfl, move_saves box box_host tree_a (.abs ["a"]) (.abs ["b"]) s
    hreach hend l hl⟩

/-- A directory with a file and a directory in it, which it is then moved
into. -/
def tree_b : FileTree Bytes :=
  ((FileTree.empty.with_ [] "a" .dir).with_ ["a"] "f" (.file [1])).with_ ["a"] "b" .dir

/-- `/a` moved into `/a/b`: the handler accepts it, every call but the rename of
the whole succeeds, and the file is gone. -/
theorem move_into_itself_loses : ¬ ∀ (k : Kernel) (h : Host) (t : FileTree Bytes)
    (src dst final_dst : PathBuf) (strategy : Strategy),
    resolve k t src dst strategy = .ok final_dst →
    ∀ s, Reach (alone k) Any (t, spawn h .move src final_dst) s → s.2.phase = .finished →
      ∀ l, IsListing k t src.path l → Saved k t src.path final_dst.path l s.1 := by
  intro hall
  have hres : resolve box tree_b (.abs ["a"]) (.abs ["a", "b"]) .none
      = .ok ⟨.abs ["a", "b", "a"], "/a/b/a", .none⟩ := by decide
  have hrun : (exec (alone box)
      (tree_b, spawn box_host .move (.abs ["a"]) ⟨.abs ["a", "b", "a"], "/a/b/a", .none⟩)
      [.main .none, .walk 3, .main .none, .main .none, .main .none, .main .none, .main .none,
        .worker 0 .none, .worker 0 .none, .worker 0 .none, .worker 0 .none, .worker 0 .none,
        .worker 0 .none, .main .none, .main .none,
        .main .none]).map (fun s => (s.2.phase, box.read s.1 (.abs ["a", "f"]),
          box.read s.1 (.abs ["a", "b", "a", "f"])))
      = some (.finished, none, none) := by decide
  obtain ⟨s, hs, hout⟩ := Option.map_eq_some_iff.mp hrun
  simp only [Prod.mk.injEq] at hout
  obtain ⟨hend, hsrc, hdst⟩ := hout
  have hl : IsListing box tree_b (.abs ["a"])
      ⟨[(.abs ["a", "f"], ["f"])], [[], ["b"]], 1⟩ := ⟨3, by decide⟩
  have hsaved := (hall box box_host tree_b _ _ _ .none hres s (reach_of_exec hs) hend _ hl).1
    (.abs ["a", "f"], ["f"]) List.mem_cons_self [1] (by decide)
  have hpath : (Path.abs ["a", "b", "a"]).down ["f"] = .abs ["a", "b", "a", "f"] := by decide
  rcases hsaved with h | h
  · rw [hsrc] at h
    cases h
  · rw [hpath, hdst] at h
    cases h

end WebDavs.Mover
