/-
One file on its way from the source of a job to its destination.

A listed file is `Here`, where the walk found it, or `There`, where its target
path leads. What one transfer does to the tree is confined to the places it
`Touches`; under the conditions of `Clear` those are on no other listed path's
way, so whatever the workers do in whatever order, each file is in one of the two
places after every call.
-/
import Mathlib.Data.List.Pairwise
import WebDavs.Handlers
import WebDavs.Walk

set_option autoImplicit false

namespace WebDavs.Mover

open WebDavs.Posix WebDavs.Posix.FileTree

/-! ## Conditions on a move -/

/-- The places a transfer to `p` may write: the entry `p` names, and what `p`
leads to when a link sits there. -/
def writes (k : Kernel) (t : FileTree Bytes) (p : Path) : List Loc :=
  match p.parent, p.file_name with
  | some q, some n => ((k.locate t q).map fun d => d ++ [n]).toList ++ (k.locate t p).toList
  | _, _ => []

/-- The places that have to stay for the listed paths to keep their way, on both
sides. -/
def ways (k : Kernel) (t : FileTree Bytes) (src dst : Path) (l : Listing) : List Loc :=
  (l.files.flatMap fun f => k.way_in t f.1 ++ k.way_in t (dst.down f.2)) ++
    l.dirs.flatMap fun rel => k.trail t (src.down rel) ++ k.trail t (dst.down rel)

/-- When nothing a move of `src` to `dst` does, file by file, gets in its own way. `b` is
what is behind the last name of the source. -/
structure Clear (k : Kernel) (t : FileTree Bytes) (src dst : Path) (b : Path.Tail) (l : Listing) :
    Prop where
  /-- No file is listed twice, under two names that a link gives it. -/
  once : l.files.Pairwise fun f g => k.entry_at t f.1 ≠ k.entry_at t g.1
  /-- No target lies, or is reached, over a listed file or inside the source. -/
  off : ∀ rel ∈ l.files.map Prod.snd ++ l.dirs, ∀ v ∈ k.trail t (dst.down rel),
    (∀ f ∈ l.files, k.entry_at t f.1 ≠ some v) ∧
      ∀ s, k.entry_at t (src.tailed b) = some s → ¬ s <+: v
  /-- What one transfer writes is on no listed path's way and no other's target. -/
  own : ∀ f ∈ l.files, ∀ v ∈ writes k t (dst.down f.2),
    v ∉ ways k t src dst l ∧ ∀ g ∈ l.files, g ≠ f → v ∉ k.trail t (dst.down g.2)
  /-- The destination is looked for from a directory outside the source. -/
  start : t.get (k.start dst) = some .dir ∧
    ∀ s, k.entry_at t (src.tailed b) = some s → ¬ s <+: k.start dst

section

variable {k : Kernel} {t : FileTree Bytes} {src dst : Path} {b : Path.Tail} {l : Listing}

theorem entry_mem_writes {q : Path} {n : String} {d : Loc} (h : k.locate t q = some d) :
    d ++ [n] ∈ writes k t (q.child n) := by
  simp only [writes, Path.parent_child, Path.file_name_child, h, Option.map_some]
  exact List.mem_append_left _ (List.mem_singleton_self _)

theorem place_mem_writes {q : Path} {n : String} {v : Loc}
    (h : k.locate t (q.child n) = some v) : v ∈ writes k t (q.child n) := by
  simp only [writes, Path.parent_child, Path.file_name_child, h]
  exact List.mem_append_right _ (List.mem_singleton_self _)

theorem Clear.nodup (hc : Clear k t src dst b l) : l.files.Nodup :=
  hc.once.imp fun {_ _} h he => h (congrArg (fun f => k.entry_at t f.1) he)

/-- The entry of a listed file, in words of the tree it was listed in. -/
theorem entry_of_file (hl : IsListing k t src l) {f : Path × List String} (hf : f ∈ l.files) :
    ∃ q d n e, f.1 = Path.child q n ∧ k.slot t f.1 = some (d, n) ∧ k.stat t q = some d ∧
      t.get d = some .dir ∧ t.get (d ++ [n]) = some e ∧ e ≠ .dir ∧
      k.entry_at t f.1 = some (d ++ [n]) ∧ ¬ t.LeadsToDir k.links d n := by
  obtain ⟨-, hnd, d, n, e, hs, he, hne⟩ := hl.file hf
  obtain ⟨q, hq, hst, hd⟩ := Kernel.slot_spec hs
  refine ⟨q, d, n, e, hq, hs, hst, hd, he, hne, Kernel.entry_at_of_slot hs, ?_⟩
  intro hleads
  rw [Kernel.is_dir_of_leads hs hleads] at hnd
  cases hnd

/-- Two listed files are two entries. -/
theorem Clear.entry_ne (hc : Clear k t src dst b l) {f g : Path × List String}
    (hf : f ∈ l.files) (hg : g ∈ l.files) (hne : g ≠ f) {s : Loc}
    (hs : k.entry_at t f.1 = some s) : k.entry_at t g.1 ≠ some s := by
  have : Std.Symm fun f g : Path × List String => k.entry_at t f.1 ≠ k.entry_at t g.1 :=
    ⟨fun _ _ h => h.symm⟩
  have hfg := hc.once.forall hg hf hne
  rwa [hs] at hfg

/-- The way to a listed path holds no listed file. -/
theorem Clear.entry_off_ways (hc : Clear k t src dst b l) (hl : IsListing k t src l)
    {f : Path × List String} (hf : f ∈ l.files) {v : Loc} (hv : v ∈ ways k t src dst l) :
    k.entry_at t f.1 ≠ some v := by
  obtain ⟨-, d, n, -, -, -, -, -, -, -, hent, hnl⟩ := entry_of_file hl hf
  -- a path to a directory runs through directories and links to directories
  have hleads : ∀ {p : Path}, k.is_dir t p = true → v ∈ k.trail t p →
      k.entry_at t f.1 ≠ some v := by
    intro p hp hmem he
    obtain ⟨x, hx, hxd⟩ := Kernel.is_dir_iff.mp hp
    obtain ⟨d', n', rfl, hld⟩ := Kernel.trail_leads hx hxd hmem
    rw [hent] at he
    obtain ⟨rfl, hn⟩ := List.append_inj' (Option.some.inj he) rfl
    obtain rfl := List.singleton_inj.mp hn
    exact hnl hld
  rcases List.mem_append.mp hv with hv | hv
  · obtain ⟨g, hg, hv⟩ := List.mem_flatMap.mp hv
    rcases List.mem_append.mp hv with hv | hv
    · obtain ⟨q, d', n', -, hq, -, hst, hd, -, -, -, -⟩ := entry_of_file hl hg
      rw [hq] at hv
      exact hleads (Kernel.is_dir_iff.mpr ⟨d', hst, hd⟩) (Kernel.mem_way_in.mp hv)
    · have hmem : g.2 ∈ l.files.map Prod.snd ++ l.dirs :=
        List.mem_append_left _ (List.mem_map_of_mem hg)
      exact (hc.off g.2 hmem v (Kernel.way_in_subset hv)).1 f hf
  · obtain ⟨rel, hrel, hv⟩ := List.mem_flatMap.mp hv
    rcases List.mem_append.mp hv with hv | hv
    · exact hleads (hl.dir hrel) hv
    · exact (hc.off rel (List.mem_append_right _ hrel) v hv).1 f hf

/-! ## What a call leaves as it was -/

/-- What `u` has kept of the tree `t` the job was started on. -/
structure WaysKept (k : Kernel) (t : FileTree Bytes) (src dst : Path) (l : Listing)
    (u : FileTree Bytes) : Prop where
  dirs : ∀ x, t.get x = some .dir → u.get x = some .dir
  ways : GrowsOn (ways k t src dst l) t u

/-- From `u` to `u'` only the entry of the listed file `f`, and what a transfer
to its target may write, have changed, and no directory is gone. -/
def Touches (k : Kernel) (t : FileTree Bytes) (dst : Path) (f : Path × List String)
    (u u' : FileTree Bytes) : Prop :=
  ∀ x, u'.get x ≠ u.get x → u.get x ≠ some .dir ∧
    (k.entry_at t f.1 = some x ∨
      (x ∈ writes k t (dst.down f.2) ∧ x ∈ k.trail t (dst.down f.2)))

/-- The listed file `f` is where the walk found it, and no link on the way of its
target has changed. -/
structure Here (k : Kernel) (t : FileTree Bytes) (dst : Path) (f : Path × List String)
    (u : FileTree Bytes) : Prop where
  entry : ∀ s, k.entry_at t f.1 = some s → u.get s = t.get s
  links : ∀ v ∈ k.trail t (dst.down f.2), u.linkAt v = t.linkAt v

/-- The listed file `f` has gone over: its target is a name in a directory, and
leads to what a regular file held. -/
structure There (k : Kernel) (t : FileTree Bytes) (dst : Path) (f : Path × List String)
    (u : FileTree Bytes) : Prop where
  parent : ∃ (q : Path) (n : String), dst.down f.2 = q.child n ∧ k.is_dir u q = true
  content : ∀ s bs, k.entry_at t f.1 = some s → t.get s = some (.file bs) →
    ∃ x, k.stat u (dst.down f.2) = some x ∧ u.get x = some (.file bs) ∧
      x ∈ k.trail t (dst.down f.2) ∧
      ∀ v ∈ k.trail u (dst.down f.2), v ∈ k.trail t (dst.down f.2)

theorem WaysKept.refl : WaysKept k t src dst l t := ⟨fun _ h => h, GrowsOn.refl _ t⟩

theorem WaysKept.grows {u u' : FileTree Bytes} (h : WaysKept k t src dst l u) (hg : Grows u u') :
    WaysKept k t src dst l u' :=
  ⟨fun x hx => hg.extends _ _ (h.dirs x hx), h.ways.trans (hg.on _)⟩

theorem Here.grows {f : Path × List String} {u u' : FileTree Bytes} (h : Here k t dst f u)
    (hl : IsListing k t src l) (hf : f ∈ l.files) (hg : Grows u u') : Here k t dst f u' := by
  refine ⟨fun s hs => ?_, fun v hv => (hg.linkAt v).trans (h.links v hv)⟩
  obtain ⟨-, d, n, e, -, -, -, -, he, -, hent, -⟩ := entry_of_file hl hf
  rw [hent] at hs
  cases hs
  have hu := h.entry _ hent
  rw [he] at hu ⊢
  exact hg.extends _ _ hu

/-- A file that has gone over stays there while its target's way does. -/
theorem There.keep {f : Path × List String} {u u' : FileTree Bytes} (h : There k t dst f u)
    (hk : WaysKept k t src dst l u) (hf : f ∈ l.files)
    (hs : u.get (k.start dst) = some .dir → u'.get (k.start dst) = some .dir)
    (hv : GrowsOn (k.trail t (dst.down f.2)) u u') : There k t dst f u' := by
  obtain ⟨q, n, hq, hd⟩ := h.parent
  have hstart : k.start q = k.start dst := by
    rw [← k.start_child q n, ← hq, Kernel.start_down]
  have hway : ∀ v ∈ k.trail t q, v ∈ ways k t src dst l := fun v hmem => by
    refine List.mem_append_left _ (List.mem_flatMap.mpr ⟨f, hf, List.mem_append_right _ ?_⟩)
    rw [hq]
    exact Kernel.mem_way_in.mpr hmem
  have htr : k.trail u q = k.trail t q :=
    (Kernel.locate_trail fun v hmem => hk.ways.linkAt (hway v hmem)).2
  refine ⟨⟨q, n, hq, ?_⟩, fun s bs he hb => ?_⟩
  · refine Kernel.is_dir_trail hd (by rwa [hstart]) fun v hmem hne => ?_
    rw [htr] at hmem
    refine hv.keeps ?_ hne
    rw [hq]
    exact k.trail_subset_child t q n hmem
  · obtain ⟨x, hx, hxb, hxt, hsub⟩ := h.content s bs he hb
    obtain ⟨hx', -⟩ := Kernel.stat_trail hx (by rwa [Kernel.start_down])
      fun v hmem hne => hv.keeps (hsub v hmem) hne
    refine ⟨x, hx', ?_, hxt, ?_⟩
    · rw [hv.keeps hxt (by simp [hxb]), hxb]
    · rw [(Kernel.locate_trail fun v hmem => hv.linkAt (hsub v hmem)).2]
      exact hsub

/-- The transfer of one file leaves every listed path's way alone. -/
theorem Touches.kept (hc : Clear k t src dst b l) (hl : IsListing k t src l)
    {f : Path × List String} (hf : f ∈ l.files) {u u' : FileTree Bytes}
    (hk : WaysKept k t src dst l u) (ht : Touches k t dst f u u') : WaysKept k t src dst l u' := by
  refine ⟨fun x hx => ?_, hk.ways.trans fun v hv => .inl ?_⟩
  · by_contra hne
    have hux := hk.dirs x hx
    exact (ht x (by rw [hux]; exact hne)).1 hux
  · by_contra hne
    obtain ⟨-, he | ⟨hw, -⟩⟩ := ht v hne
    · exact hc.entry_off_ways hl hf hv he
    · exact (hc.own f hf v hw).1 hv

/-- ... and every other file where it is. -/
theorem Touches.here (hc : Clear k t src dst b l) {f g : Path × List String}
    (hf : f ∈ l.files) (hg : g ∈ l.files) (hne : g ≠ f) {u u' : FileTree Bytes}
    (ht : Touches k t dst f u u') (h : Here k t dst g u) : Here k t dst g u' := by
  have hmem : ∀ {h : Path × List String}, h ∈ l.files →
      h.2 ∈ l.files.map Prod.snd ++ l.dirs := fun hh =>
    List.mem_append_left _ (List.mem_map_of_mem hh)
  refine ⟨fun s hs => ?_, fun v hv => ?_⟩
  · rw [← h.entry s hs]
    by_contra hch
    obtain ⟨-, he | ⟨-, htr⟩⟩ := ht s hch
    · exact hc.entry_ne hf hg hne he hs
    · exact (hc.off f.2 (hmem hf) s htr).1 g hg hs
  · rw [← h.links v hv]
    refine linkAt_of_get_eq ?_
    by_contra hch
    obtain ⟨-, he | ⟨hw, -⟩⟩ := ht v hch
    · exact (hc.off g.2 (hmem hg) v hv).1 f hf he
    · exact (hc.own f hf v hw).2 g hg hne hv

/-- Whatever becomes of `f`, another file that has gone over stays there. -/
theorem Touches.there (hc : Clear k t src dst b l) {f g : Path × List String}
    (hf : f ∈ l.files) (hg : g ∈ l.files) (hne : g ≠ f) {u u' : FileTree Bytes}
    (hk : WaysKept k t src dst l u) (ht : Touches k t dst f u u') (h : There k t dst g u) :
    There k t dst g u' := by
  refine h.keep hk hg (fun hs => ?_) fun v hv => .inl ?_
  · by_contra hch
    exact (ht _ (by rw [hs]; exact hch)).1 hs
  · by_contra hch
    obtain ⟨-, he | ⟨hw, -⟩⟩ := ht v hch
    · exact (hc.off g.2 (List.mem_append_left _ (List.mem_map_of_mem hg)) v hv).1 f hf he
    · exact (hc.own f hf v hw).2 g hg hne hv

/-! ## The calls of a transfer -/

theorem mem_ways_src {f : Path × List String} (hf : f ∈ l.files) {v : Loc}
    (hv : v ∈ k.way_in t f.1) : v ∈ ways k t src dst l :=
  List.mem_append_left _ (List.mem_flatMap.mpr ⟨f, hf, List.mem_append_left _ hv⟩)

theorem mem_ways_dst {f : Path × List String} (hf : f ∈ l.files) {v : Loc}
    (hv : v ∈ k.way_in t (dst.down f.2)) : v ∈ ways k t src dst l :=
  List.mem_append_left _ (List.mem_flatMap.mpr ⟨f, hf, List.mem_append_right _ hv⟩)

/-- A listed file keeps its slot. -/
theorem WaysKept.slot {u : FileTree Bytes} (hk : WaysKept k t src dst l u) {f : Path × List String}
    (hf : f ∈ l.files) {d : Loc} {n : String} (hs : k.slot t f.1 = some (d, n)) :
    k.slot u f.1 = some (d, n) := by
  refine Kernel.slot_trail hs (hk.dirs _) fun q hq v hv hne => ?_
  refine hk.ways.keeps (mem_ways_src hf ?_) hne
  rw [hq]
  exact Kernel.mem_way_in.mpr hv

theorem WaysKept.src_dir {u : FileTree Bytes} (hk : WaysKept k t src dst l u)
    (hl : IsListing k t src l)
    {rel : List String} (hr : rel ∈ l.dirs) : k.is_dir u (src.down rel) = true := by
  refine Kernel.is_dir_trail (hl.dir hr) (hk.dirs _) fun v hv hne => ?_
  refine hk.ways.keeps (List.mem_append_right _ (List.mem_flatMap.mpr ⟨rel, hr, ?_⟩)) hne
  exact List.mem_append_left _ hv

/-- The parent of a target leads where it would have led at the start. -/
theorem WaysKept.locate_parent {u : FileTree Bytes} (hk : WaysKept k t src dst l u)
    {f : Path × List String} (hf : f ∈ l.files) {q : Path} {n : String}
    (hq : dst.down f.2 = q.child n) :
    k.locate u q = k.locate t q ∧ k.trail u q = k.trail t q := by
  refine Kernel.locate_trail fun v hv => hk.ways.linkAt (mem_ways_dst hf ?_)
  rw [hq]
  exact Kernel.mem_way_in.mpr hv

/-- The slot of a target is among the places its transfer may write. -/
theorem WaysKept.target_slot {u : FileTree Bytes} (hk : WaysKept k t src dst l u)
    {f : Path × List String}
    (hf : f ∈ l.files) {d : Loc} {n : String} (hs : k.slot u (dst.down f.2) = some (d, n)) :
    d ++ [n] ∈ writes k t (dst.down f.2) ∧ d ++ [n] ∈ k.trail t (dst.down f.2) := by
  obtain ⟨q, hq, hst, -⟩ := Kernel.slot_spec hs
  have hloc : k.locate t q = some d := by
    rw [← (hk.locate_parent hf hq).1]
    exact Kernel.locate_of_stat hst
  rw [hq]
  refine ⟨entry_mem_writes hloc, ?_⟩
  rw [Path.child_eq_down, Kernel.trail_down, hloc]
  exact List.mem_append_right _ List.mem_cons_self

/-- A listed file is not among the places on the way of a target. -/
theorem Clear.entry_off_target (hc : Clear k t src dst b l) {f g : Path × List String}
    (hf : f ∈ l.files) (hg : g ∈ l.files) {s : Loc} (hs : k.entry_at t f.1 = some s) :
    s ∉ k.trail t (dst.down g.2) := fun hv =>
  (hc.off g.2 (List.mem_append_left _ (List.mem_map_of_mem hg)) s hv).1 f hf hs

/-- A listed file renamed to its target has gone over. -/
theorem transfer_renamed (hc : Clear k t src dst b l) (hl : IsListing k t src l)
    {f : Path × List String} (hf : f ∈ l.files) {u u' : FileTree Bytes}
    (hk : WaysKept k t src dst l u) (hh : Here k t dst f u)
    (hr : k.rename u f.1 (dst.down f.2) = .ok u') :
    Touches k t dst f u u' ∧ There k t dst f u' := by
  obtain ⟨-, d, n, e, -, hs, -, -, he, hne, hent, -⟩ := entry_of_file hl hf
  have hsu := hk.slot hf hs
  have heu : u.get (d ++ [n]) = some e := (hh.entry _ hent).trans he
  obtain ⟨_, _, d', n', _, h₁, hs', -⟩ := Kernel.rename_spec hr
  obtain ⟨hw, htr⟩ := hk.target_slot hf hs'
  have hdiff : d ++ [n] ≠ d' ++ [n'] := fun heq =>
    hc.entry_off_target hf hf hent (heq ▸ htr)
  obtain ⟨hnd, hget⟩ := Kernel.rename_leaf_spec hr hsu hs' heu hne hdiff
  have ht : Touches k t dst f u u' := by
    intro x hx
    rw [hget] at hx
    by_cases hx' : x = d' ++ [n']
    · exact ⟨hx' ▸ hnd, .inr (hx' ▸ ⟨hw, htr⟩)⟩
    · rw [if_neg hx'] at hx
      by_cases hxs : x = d ++ [n]
      · refine ⟨?_, .inl (hxs ▸ hent)⟩
        rw [hxs, heu]
        exact fun h => hne (Option.some.inj h)
      · rw [if_neg hxs] at hx
        exact absurd rfl hx
  refine ⟨ht, ?_⟩
  obtain ⟨q, hq, hst, hd'⟩ := Kernel.slot_spec hs'
  have hk' := ht.kept hc hl hf hk
  -- the target's parent is on a way that stays
  obtain ⟨hst', hkeep⟩ := @Kernel.stat_trail _ k u u' q d' hst
    (fun h => by
      by_contra hch
      exact (ht _ (by rw [h]; exact hch)).1 h)
    (fun v hv _ => by
      rw [(hk.locate_parent hf hq).2] at hv
      have hway : v ∈ ways k t src dst l := mem_ways_dst hf
        (by rw [hq]; exact Kernel.mem_way_in.mpr hv)
      by_contra hch
      obtain ⟨-, hx | ⟨hx, -⟩⟩ := ht v hch
      · exact hc.entry_off_ways hl hf hway hx
      · exact (hc.own f hf v hx).1 hway)
  refine ⟨⟨q, n', hq, Kernel.is_dir_iff.mpr ⟨d', hst', hkeep hd'⟩⟩, fun s bs hs hb => ?_⟩
  rw [hent] at hs
  cases hs
  rw [he] at hb
  cases hb
  have hx : u'.get (d' ++ [n']) = some (.file bs) := by rw [hget, if_pos rfl]
  refine ⟨d' ++ [n'], ?_, hx, htr, fun v hv => ?_⟩
  · rw [hq]
    exact Kernel.stat_child_of_get hst' hx (by simp)
  · rw [hq, Path.child_eq_down] at hv
    rcases Kernel.mem_trail_down (Kernel.locate_of_stat hst')
      (fun s hs0 hsn => by
        rcases List.prefix_concat_iff.mp (show s <+: [] ++ [n'] from hsn) with rfl | hnil
        · exact linkAt_of_file hx
        · exact absurd (List.prefix_nil.mp hnil) hs0) hv with hv | ⟨s, hs0, hsn, rfl⟩
    · rw [(hk'.locate_parent hf hq).2] at hv
      rw [hq]
      exact k.trail_subset_child t q n' hv
    · rcases List.prefix_concat_iff.mp (show s <+: [] ++ [n'] from hsn) with rfl | hnil
      · exact htr
      · exact absurd (List.prefix_nil.mp hnil) hs0

/-- A copy, whole or partial, leaves the listed file here; a whole one has taken
it over as well. -/
theorem transfer_copied (hc : Clear k t src dst b l) (hl : IsListing k t src l)
    {f : Path × List String} (hf : f ∈ l.files) {u u' : FileTree Bytes} {fault : Fault}
    {r : Except Errno Nat} (hk : WaysKept k t src dst l u) (hh : Here k t dst f u)
    (hcp : copy_file k u f.1 (dst.down f.2) fault = (u', r)) :
    Touches k t dst f u u' ∧ Here k t dst f u' ∧ ∀ m, r = .ok m → There k t dst f u' := by
  obtain ⟨-, d₀, n₀, e, -, hs₀, -, -, he, hne, hent, -⟩ := entry_of_file hl hf
  rcases copy_file_spec hcp with ⟨rfl, e', rfl⟩ | ⟨x, d, n, bs, hx, hp, hd, hnd, hget, hok⟩
  · exact ⟨fun x hx => absurd rfl hx, hh, fun m hm => by cases hm⟩
  obtain ⟨-, hnl, hloc⟩ := Kernel.place_spec hp
  obtain ⟨q, m, hq, hqd⟩ := Kernel.parent_of_place hp
  obtain ⟨hloc', htr'⟩ := @Kernel.locate_trail _ k t u (dst.down f.2) hh.links
  have hw : d ++ [n] ∈ writes k t (dst.down f.2) := by
    rw [hq] at hloc hloc' ⊢
    exact place_mem_writes (hloc' ▸ hloc)
  have htr : d ++ [n] ∈ k.trail t (dst.down f.2) := by
    rw [← htr']
    exact Kernel.place_mem_trail hp
  have ht : Touches k t dst f u u' := by
    intro y hy
    rw [hget] at hy
    by_cases hyx : y = d ++ [n]
    · exact ⟨hyx ▸ hnd, .inr (hyx ▸ ⟨hw, htr⟩)⟩
    · rw [if_neg hyx] at hy
      exact absurd rfl hy
  have hentne : d₀ ++ [n₀] ≠ d ++ [n] := fun heq =>
    hc.entry_off_target hf hf hent (heq ▸ htr)
  have hfile : u'.get (d ++ [n]) = some (.file bs) := by rw [hget, if_pos rfl]
  have hlinks : ∀ v, u'.linkAt v = u.linkAt v := by
    intro v
    by_cases hv : v = d ++ [n]
    · rw [hv, hnl, linkAt_of_file hfile]
    · exact linkAt_of_get_eq (by rw [hget, if_neg hv])
  have hh' : Here k t dst f u' := by
    refine ⟨fun s hs => ?_, fun v hv => (hlinks v).trans (hh.links v hv)⟩
    rw [hent] at hs
    cases hs
    rw [hget, if_neg hentne]
    exact hh.entry _ hent
  refine ⟨ht, hh', fun m hm => ?_⟩
  obtain ⟨c, hxc, hbs⟩ := hok m hm
  refine ⟨⟨q, _, hq, ?_⟩, fun s cs hs hcs => ?_⟩
  · obtain ⟨y, hy, hyd⟩ := Kernel.is_dir_iff.mp hqd
    have hkd := @Kernel.keepsDirs_of_leaf _ k.links u u' d n hnd hnl
      fun y hy => by rw [hget, if_neg hy]
    exact Kernel.is_dir_iff.mpr ⟨y, Kernel.stat_keepsDirs hkd hy hyd, hkd.get_dir hyd⟩
  · rw [hent] at hs
    cases hs
    -- a regular file was read where it is listed
    have hsf : u.get (d₀ ++ [n₀]) = some (.file cs) := (hh.entry _ hent).trans hcs
    obtain ⟨q₀, hq₀, hst₀, -⟩ := Kernel.slot_spec (hk.slot hf hs₀)
    have hxs : x = d₀ ++ [n₀] := by
      rw [hq₀, Kernel.stat_child_of_get hst₀ hsf (by simp)] at hx
      exact (Option.some.inj hx).symm
    rw [hxs, hsf] at hxc
    cases hxc
    rw [hxs, if_neg hentne] at hbs
    refine ⟨d ++ [n], ?_, hbs ▸ hfile, htr, ?_⟩
    · exact Kernel.stat_of_place hfile hnd (fun y hy => by rw [hget, if_neg hy]) hp
    · rw [(Kernel.locate_trail fun v _ => hlinks v).2, htr']
      exact fun v hv => hv

/-- Removing a listed file that has gone over. -/
theorem transfer_removed (hc : Clear k t src dst b l) (hl : IsListing k t src l)
    {f : Path × List String} (hf : f ∈ l.files) {u u' : FileTree Bytes}
    (hk : WaysKept k t src dst l u) (hth : There k t dst f u)
    (hr : k.remove_file u f.1 = .ok u') : Touches k t dst f u u' ∧ There k t dst f u' := by
  obtain ⟨-, d, n, e, -, hs, -, -, -, -, hent, -⟩ := entry_of_file hl hf
  obtain ⟨d', n', e', hs', he', hne', hget⟩ := Kernel.remove_file_spec hr
  rw [hk.slot hf hs] at hs'
  cases hs'
  have ht : Touches k t dst f u u' := by
    intro x hx
    rw [hget] at hx
    by_cases hxs : x = d ++ [n]
    · refine ⟨?_, .inl (hxs ▸ hent)⟩
      rw [hxs, he']
      exact fun h => hne' (Option.some.inj h)
    · rw [if_neg hxs] at hx
      exact absurd rfl hx
  refine ⟨ht, hth.keep hk hf (fun h => ?_) fun v hv => .inl ?_⟩
  · by_contra hch
    exact (ht _ (by rw [h]; exact hch)).1 h
  · rw [hget, if_neg]
    rintro rfl
    exact hc.entry_off_target hf hf hent hv

end

end WebDavs.Mover
