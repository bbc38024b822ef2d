/-
A deletion removes the tree it was asked to remove, and nothing else.

Two facts carry this. Whatever fails, every path the deletion works on names,
if anything, the entry of the tree that the walk listed under it; so what goes
is of that tree (`Shrunk`). And when nothing fails the lists are complete and in
order: a file is there when its turn comes, and a directory is empty.
-/
import WebDavs.Delete
import WebDavs.Pool
import WebDavs.Steps
import WebDavs.Walk

set_option autoImplicit false

namespace WebDavs.Mover

open WebDavs.Posix WebDavs.Posix.FileTree WebDavs.Steps

/-! ## What can be deleted exactly -/

/-- `src` names the entry at `s`, and when that is a directory, no link in it
leads to a directory and `src` is not reached through it. Behind the last name is nothing,
or, of a directory, separators. -/
structure Deletable (k : Kernel) (t : FileTree Bytes) (src : Path) (b : Path.Tail) (s : Loc) :
    Prop where
  slot : ∃ d n, k.slot t src = some (d, n) ∧ s = d ++ [n]
  there : t.get s ≠ none
  plain : t.get s = some .dir → Plain k t s
  way : t.get s = some .dir → ∀ v ∈ k.way_in t src, s <+: v → v = s
  start : t.get s = some .dir → s <+: k.start src → k.start src = s
  tail : b = .none ∨ b = .slash ∧ t.get s = some .dir

/-- `u` is `t` less some of what is at and below `s`. -/
structure Shrunk (t : FileTree Bytes) (s : Loc) (u : FileTree Bytes) : Prop where
  out : ∀ x, ¬ s <+: x → u.get x = t.get x
  sub : ∀ x, u.get x = t.get x ∨ u.get x = none

/-- What the walk of a deletion lists, by relative paths. -/
structure Doomed (t : FileTree Bytes) (src : Path) (s : Loc) (r : Removals)
    (fs ds : List (List String)) : Prop where
  files : r.files = fs.map src.down
  dirs : r.dirs = ds.map src.down
  leaf : ∀ x ∈ fs, ∃ e, t.get (s ++ x) = some e ∧ e ≠ .dir
  dir : ∀ x ∈ ds, t.get (s ++ x) = some .dir
  all : ∀ x e, t.get (s ++ x) = some e → (e ≠ .dir ∧ x ∈ fs) ∨ (e = .dir ∧ x ∈ ds)
  nodup : fs.Nodup
  order : ds.Pairwise fun x y => ¬ y <+: x

section

variable {k : Kernel} {t u u' : FileTree Bytes} {src : Path} {b : Path.Tail} {s : Loc} {r : Removals}
variable {fs ds : List (List String)} {x : List String}

theorem Shrunk.refl : Shrunk t s t := ⟨fun _ _ => rfl, fun _ => .inl rfl⟩

/-- One entry more is gone. -/
theorem Shrunk.less (h : Shrunk t s u)
    (hg : ∀ y, u'.get y = if y = s ++ x then none else u.get y) : Shrunk t s u' := by
  refine ⟨fun y hy => ?_, fun y => ?_⟩
  · rw [hg, if_neg]
    · exact h.out y hy
    · rintro rfl
      exact hy (List.prefix_append _ _)
  · rw [hg]
    split
    · exact .inr rfl
    · exact h.sub y

theorem Shrunk.get_of_some (h : Shrunk t s u) {y : Loc} {e : Entry Bytes}
    (he : u.get y = some e) : t.get y = some e := by
  rcases h.sub y with h' | h'
  · rw [← h', he]
  · rw [h'] at he
    cases he

/-- What the walk listed. -/
theorem doomed_of_walk {fuel : Nat} (hd : Deletable k t src b s) (hdir : t.get s = some .dir)
    (hw : walk_delete k t fuel src = some (.ok r)) : ∃ fs ds, Doomed t src s r fs ds := by
  obtain ⟨d, n, hs, rfl⟩ := hd.slot
  -- the listing of a deletion is that of the walk, files and directories told apart by the
  -- leaf
  obtain ⟨vs', hvs, hmap⟩ := Option.map_eq_some_iff.mp hw
  obtain ⟨vs, rfl, hl⟩ := walk_spec (Names.of_slot hs hdir (hd.plain hdir)) (hd.plain hdir) hvs
  cases hmap
  have hpath : ∀ v ∈ vs, v.path = src.down v.rel := by
    intro v hv
    obtain ⟨y, e, h1, h2, -⟩ := hl.sound v hv
    rw [h1, h2, List.nil_append]
  have hget : ∀ v ∈ vs, ∃ e, t.get (d ++ [n] ++ v.rel) = some e ∧ v.leaf = leafOf e := by
    intro v hv
    obtain ⟨y, e, -, h2, h3, h4⟩ := hl.sound v hv
    rw [h2, List.nil_append]
    exact ⟨e, h3, h4⟩
  have hleaf : ∀ e : Entry Bytes, leafOf e = none ↔ e = .dir := by
    intro e
    cases e <;> simp [leafOf]
  have hrel : vs.Pairwise fun v w => v.rel ≠ w.rel :=
    hl.ordered.imp fun h he => h (by rw [he])
  refine ⟨vs.filterMap fun v => v.leaf.map fun _ => v.rel,
    vs.filterMap fun v => if v.leaf.isNone then some v.rel else none, ?_, ?_, ?_, ?_, ?_, ?_, ?_⟩
  · simp only [Removals.of, List.map_filterMap]
    refine List.filterMap_congr fun v hv => ?_
    cases hlv : v.leaf with
    | none => rfl
    | some e => simp [hpath v hv]
  · simp only [Removals.of, List.map_filterMap]
    refine List.filterMap_congr fun v hv => ?_
    cases hlv : v.leaf with
    | none => simp [hpath v hv]
    | some e => rfl
  · intro y hy
    obtain ⟨v, hv, hm⟩ := List.mem_filterMap.mp hy
    obtain ⟨e', he', rfl⟩ := Option.map_eq_some_iff.mp hm
    obtain ⟨e, he, hlv⟩ := hget v hv
    refine ⟨e, he, fun hdir => ?_⟩
    rw [(hleaf e).mpr hdir, he'] at hlv
    cases hlv
  · intro y hy
    obtain ⟨v, hv, hm⟩ := List.mem_filterMap.mp hy
    split at hm
    · rename_i hnone
      cases hm
      obtain ⟨e, he, hlv⟩ := hget v hv
      rw [he, (hleaf e).mp (by rw [← hlv]; simpa using hnone)]
    · cases hm
  · intro y e hy
    obtain ⟨v, hv, hvy⟩ := hl.complete y e hy
    rw [List.nil_append] at hvy
    obtain ⟨e', he', hlv⟩ := hget v hv
    rw [hvy, hy] at he'
    cases he'
    -- whatever is in the tree is in one list or the other
    by_cases hdir : e = .dir
    · refine .inr ⟨hdir, List.mem_filterMap.mpr ⟨v, hv, ?_⟩⟩
      rw [hlv, (hleaf e).mpr hdir, hvy]
      rfl
    · refine .inl ⟨hdir, List.mem_filterMap.mpr ⟨v, hv, ?_⟩⟩
      obtain ⟨e₁, he₁⟩ := Option.ne_none_iff_exists'.mp fun h => hdir ((hleaf e).mp h)
      rw [hlv, he₁, hvy]
      rfl
  · refine List.pairwise_filterMap.mpr (hrel.imp fun {v w} hne y hy z hz => ?_)
    obtain ⟨_, -, rfl⟩ := Option.map_eq_some_iff.mp hy
    obtain ⟨_, -, rfl⟩ := Option.map_eq_some_iff.mp hz
    exact hne
  · refine List.pairwise_filterMap.mpr (hl.ordered.imp fun {v w} hne y hy z hz => ?_)
    split at hy
    · split at hz
      · cases hy
        cases hz
        exact hne
      · cases hz
    · cases hy

/-! ## Where the paths of a deletion lead -/

theorem Shrunk.linkAt (h : Shrunk t s u) (hdir : t.get s = some .dir) {v : Loc}
    (hv : s <+: v → v = s) : u.linkAt v = t.linkAt v := by
  by_cases hp : s <+: v
  · rw [hv hp]
    rcases h.sub s with h' | h'
    · exact linkAt_of_get_eq h'
    · rw [linkAt_of_none h', linkAt_of_dir hdir]
  · exact linkAt_of_get_eq (h.out v hp)

/-- The way to the source is the one it was. -/
theorem Shrunk.locate_parent (h : Shrunk t s u) (hd : Deletable k t src b s)
    (hdir : t.get s = some .dir) {q : Path} {n : String} (hq : src = q.child n) :
    k.locate u q = k.locate t q := by
  refine (Kernel.locate_trail fun v hv => h.linkAt hdir fun hp => ?_).1
  refine hd.way hdir v ?_ hp
  rw [hq]
  exact Kernel.mem_way_in.mpr hv

theorem Shrunk.locate_src (h : Shrunk t s u) (hd : Deletable k t src b s)
    (hdir : t.get s = some .dir) : k.locate u src = some s := by
  obtain ⟨d, n, hs, rfl⟩ := hd.slot
  obtain ⟨q, hq, hst, -⟩ := Kernel.slot_spec hs
  have hway : k.locate u q = some d := by
    rw [h.locate_parent hd hdir hq]
    exact Kernel.locate_of_stat hst
  rw [hq, Path.child_eq_down]
  refine FileTree.locate_down_names hway fun y hy0 hyn => ?_
  rcases List.prefix_concat_iff.mp (show y <+: [] ++ [n] from hyn) with rfl | hnil
  · rw [List.nil_append, h.linkAt hdir fun _ => rfl, linkAt_of_dir hdir]
  · exact absurd (List.prefix_nil.mp hnil) hy0

/-- A path below the source names, if anything, the entry listed under it. -/
theorem Shrunk.slot_eq (h : Shrunk t s u) (hd : Deletable k t src b s)
    (hdir : t.get s = some .dir) {e : Entry Bytes} (he : t.get (s ++ x) = some e) {d' : Loc}
    {n' : String} (hs : k.slot u (src.down x) = some (d', n')) : d' ++ [n'] = s ++ x := by
  have hsrc := h.locate_src hd hdir
  -- deleting makes no links, so the path below the source resolves name by name
  have hnl : ∀ y, y <+: x → y ≠ x → u.linkAt (s ++ y) = none := by
    intro y hyx hne
    have hyd : t.get (s ++ y) = some .dir :=
      t.get_of_prefix ((List.prefix_append_right_inj s).mpr hyx)
        (fun h => hne (List.append_cancel_left h)) he
    rcases h.sub (s ++ y) with h' | h'
    · rw [linkAt_of_get_eq h', linkAt_of_dir hyd]
    · exact linkAt_of_none h'
  obtain ⟨q', hq', hst, -⟩ := Kernel.slot_spec hs
  have hloc := Kernel.locate_of_stat hst
  rcases List.eq_nil_or_concat x with rfl | ⟨y, m, rfl⟩
  · -- the source itself: its slot is the slot it had
    obtain ⟨d, n, hs₀, hsd⟩ := hd.slot
    obtain ⟨q, hq, -, -⟩ := Kernel.slot_spec hs₀
    rw [Path.down_nil] at hq'
    have hqq : q = q' ∧ n = n' := by
      have hp := congrArg Path.parent (hq.symm.trans hq')
      have hn := congrArg Path.file_name (hq.symm.trans hq')
      simp only [Path.parent_child, Path.file_name_child, Option.some.injEq] at hp hn
      exact ⟨hp, hn⟩
    obtain ⟨rfl, rfl⟩ := hqq
    rw [hq] at hs₀
    rw [h.locate_parent hd hdir hq,
      Kernel.locate_of_stat (Kernel.slot_child_eq_some.mp hs₀).1] at hloc
    cases hloc
    rw [List.append_nil, hsd]
  -- below it: the slot is the parent found name by name, and the last name
  · rw [List.concat_eq_append] at hq' hnl ⊢
    rw [← Path.down_child] at hq'
    have hqq : src.down y = q' ∧ m = n' := by
      have hp := congrArg Path.parent hq'
      have hn := congrArg Path.file_name hq'
      simp only [Path.parent_child, Path.file_name_child, Option.some.injEq] at hp hn
      exact ⟨hp, hn⟩
    obtain ⟨rfl, rfl⟩ := hqq
    have hdown : k.locate u (src.down y) = some (s ++ y) :=
      FileTree.locate_down_names hsrc fun z _ hzy => hnl z (hzy.trans (List.prefix_append _ _))
        fun hzx => by
          have := hzy.length_le
          rw [hzx, List.length_append, List.length_singleton] at this
          omega
    rw [hdown] at hloc
    cases hloc
    rw [List.append_assoc]

/-- While the directory it is in is there, a listed entry has its slot. -/
theorem Shrunk.slot_some (h : Shrunk t s u) (hd : Deletable k t src b s)
    (hdir : t.get s = some .dir) {e : Entry Bytes} (he : t.get (s ++ x) = some e)
    (hpre : ∀ y, y <+: x → y ≠ x ∨ e = .dir → u.get (s ++ y) = some .dir)
    (hroot : u.get s = some .dir) : ∃ d' n', k.slot u (src.down x) = some (d', n') := by
  obtain ⟨d, n, hs, rfl⟩ := hd.slot
  obtain ⟨q, rfl, hq, hqd⟩ := Kernel.slot_spec hs
  obtain ⟨hqu, hkeep⟩ := @Kernel.stat_trail _ k t u q d hq
    (fun hst => by
      by_cases hp : d ++ [n] <+: k.start q
      · have := hd.start hdir (by rwa [Kernel.start_child])
        rw [Kernel.start_child] at this
        rw [this]
        exact hroot
      · rw [h.out _ hp]
        exact hst)
    (fun v hv _ => by
      by_cases hp : d ++ [n] <+: v
      · rw [hd.way hdir v (Kernel.mem_way_in.mpr hv) hp, hroot, hdir]
      · exact h.out v hp)
  rcases List.eq_nil_or_concat x with rfl | ⟨y, m, rfl⟩
  · rw [Path.down_nil]
    exact ⟨d, n, Kernel.slot_child_eq_some.mpr ⟨hqu, hkeep hqd, rfl⟩⟩
  · rw [List.concat_eq_append] at hpre ⊢
    have hy : u.get (d ++ [n] ++ y) = some .dir := hpre y (List.prefix_append _ _) (.inl (by simp))
    refine ⟨d ++ [n] ++ y, m, ?_⟩
    rw [← Path.down_child]
    refine Kernel.slot_child_eq_some.mpr ⟨?_, hy, rfl⟩
    rw [Path.child_down]
    have hy' : u.get (d ++ (n :: y)) = some .dir := by simpa using hy
    have := Kernel.stat_down_of_get hqu hy' (by simp)
    simpa using this

/-! ## What one removal does -/

theorem Shrunk.remove_file (h : Shrunk t s u) (hd : Deletable k t src b s)
    (hdir : t.get s = some .dir) {e : Entry Bytes} (he : t.get (s ++ x) = some e)
    (hr : k.remove_file u (src.down x) = .ok u') :
    Shrunk t s u' ∧ ∀ y, u'.get y = if y = s ++ x then none else u.get y := by
  obtain ⟨d', n', e', hs, -, -, hg⟩ := Kernel.remove_file_spec hr
  rw [h.slot_eq hd hdir he hs] at hg
  exact ⟨h.less hg, hg⟩

theorem Shrunk.remove_dir (h : Shrunk t s u) (hd : Deletable k t src b s)
    (hdir : t.get s = some .dir) {e : Entry Bytes} (he : t.get (s ++ x) = some e)
    (hr : k.remove_dir u (src.down x) = .ok u') :
    Shrunk t s u' ∧ ∀ y, u'.get y = if y = s ++ x then none else u.get y := by
  obtain ⟨d', n', hs, -, -, hg⟩ := Kernel.remove_dir_spec hr
  rw [h.slot_eq hd hdir he hs] at hg
  exact ⟨h.less hg, hg⟩

/-- A directory is walked whatever is behind its name. -/
theorem Deletable.walk_from (hd : Deletable k t src b s) (hdir : t.get s = some .dir) (c : Path.Tail)
    {α : Type} (w : Option (Except Errno α)) : Mover.walk_from k t src c w = w := by
  obtain ⟨d, n, hs, rfl⟩ := hd.slot
  obtain ⟨q, rfl, hq, -⟩ := Kernel.slot_spec hs
  have hst := Kernel.stat_child_of_get hq hdir (by simp)
  exact if_pos (.inr (Kernel.is_dir_iff.mpr ⟨_, hst, hdir⟩))

/-- No directory is to be removed by a `.`. -/
theorem Deletable.dir_tail (hd : Deletable k t src b s) {d : Deleter} (h : d.src_tail = b) (n : Nat) :
    d.dir_tail n ≠ .dot := by
  unfold Deleter.dir_tail
  rw [h]
  split
  · rcases hd.tail with hb | ⟨hb, -⟩
    · simp [hb]
    · simp [hb]
  · simp

/-- Directories are told from everything else by the two tests. -/
theorem single_iff (hd : Deletable k t src b s) :
    (k.is_file t src = true ∨ k.is_symlink t src = true) ↔ t.get s ≠ some .dir := by
  obtain ⟨d, n, hs, rfl⟩ := hd.slot
  obtain ⟨q, rfl, hq, -⟩ := Kernel.slot_spec hs
  have hlstat : k.lstat t (q.child n) = t.get (d ++ [n]) := by
    rw [Kernel.lstat_eq, Kernel.entry_at_of_slot hs]
    rfl
  obtain ⟨e, he⟩ := Option.ne_none_iff_exists'.mp hd.there
  rw [he] at hlstat ⊢
  cases e with
  | dir =>
      have hst := Kernel.stat_child_of_get hq he (by simp)
      have h1 : k.is_file t (q.child n) = false := by
        simp [Kernel.is_file, Kernel.read, hst, he]
      have h2 : k.is_symlink t (q.child n) = false := by
        simp [Kernel.is_symlink, hlstat]
      simp [h1, h2]
  | file bs =>
      have hst := Kernel.stat_child_of_get hq he (by simp)
      have h1 : k.is_file t (q.child n) = true := by
        simp [Kernel.is_file, Kernel.read, hst, he]
      simp [h1]
  | symlink tgt =>
      have h2 : k.is_symlink t (q.child n) = true := by
        simp [Kernel.is_symlink, hlstat]
      simp [h2]

/-! ## Nothing else goes

In every run, whatever fails. -/

/-- What holds in each phase. -/
def FramedAt (t : FileTree Bytes) (src : Path) (s : Loc) (u : FileTree Bytes) : Clearing → Prop
  | .queued => u = t
  | .checking => u = t
  | .removing => u = t ∧ t.get s ≠ some .dir
  | .walking => u = t ∧ t.get s = some .dir
  | .working r _ _ _ => t.get s = some .dir ∧ ∃ fs ds, Doomed t src s r fs ds
  | .clearing r _ _ => t.get s = some .dir ∧ ∃ fs ds, Doomed t src s r fs ds
  | .emptying r _ _ => t.get s = some .dir ∧ ∃ fs ds, Doomed t src s r fs ds
  | .finished => True

structure Framed (t : FileTree Bytes) (src : Path) (b : Path.Tail) (s : Loc)
    (x : FileTree Bytes × Deleter) : Prop where
  src_eq : x.2.src = src
  tail_eq : x.2.src_tail = b
  shrunk : Shrunk t s x.1
  phase : FramedAt t src s x.1 x.2.phase

/-- A deletion as a machine of its own: nothing else touches the tree. -/
def deleting (k : Kernel) (x : FileTree Bytes × Deleter) (e : Event) :
    Option (FileTree Bytes × Deleter) :=
  Deleter.step k x.1 x.2 e

theorem Doomed.file_at (h : Doomed t src s r fs ds) {n : Nat} {p : Path}
    (hp : r.files[n]? = some p) : ∃ x e, fs[n]? = some x ∧ p = src.down x ∧
      t.get (s ++ x) = some e ∧ e ≠ .dir := by
  rw [h.files, List.getElem?_map] at hp
  obtain ⟨x, hx, rfl⟩ := Option.map_eq_some_iff.mp hp
  obtain ⟨e, he, hne⟩ := h.leaf x (List.mem_of_getElem? hx)
  exact ⟨x, e, hx, rfl, he, hne⟩

theorem Doomed.dir_at (h : Doomed t src s r fs ds) {n : Nat} {p : Path}
    (hp : r.dirs[n]? = some p) : ∃ x, ds[n]? = some x ∧ p = src.down x ∧
      t.get (s ++ x) = some .dir := by
  rw [h.dirs, List.getElem?_map] at hp
  obtain ⟨x, hx, rfl⟩ := Option.map_eq_some_iff.mp hp
  exact ⟨x, hx, rfl, h.dir x (List.mem_of_getElem? hx)⟩

theorem framed_step (hd : Deletable k t src b s) {x x' : FileTree Bytes × Deleter} {e : Event}
    (h : Framed t src b s x) (hs : deleting k x e = some x') : Framed t src b s x' := by
  obtain ⟨u, d⟩ := x
  obtain ⟨hsrc, htail, hsh, hat⟩ := h
  dsimp only at hsrc htail hsh hat
  have hframed : ∀ (u' : FileTree Bytes) (p : Clearing) (job : Job), Shrunk t s u' →
      FramedAt t src s u' p → Framed t src b s (u', { d with phase := p, job := job }) :=
    fun u' p job h₁ h₂ => ⟨hsrc, htail, h₁, h₂⟩
  cases Deleter.step_cases hs with
  | started f hp =>
      rw [hp] at hat
      exact hframed _ _ _ hsh hat
  | single f hp hc hb =>
      rw [hp] at hat
      obtain rfl : u = t := hat
      rw [hsrc] at hc
      exact hframed _ _ d.job hsh ⟨rfl, (single_iff hd).mp hc⟩
  | many f hp hc =>
      rw [hp] at hat
      obtain rfl : u = t := hat
      rw [hsrc, htail] at hc
      refine hframed _ _ d.job hsh ⟨rfl, ?_⟩
      -- what is no directory has no tail, and would have been taken for a single entry
      by_contra hne
      rcases hc with hb | hc
      · exact hne (hd.tail.resolve_left hb).2
      · rcases (single_iff hd).mpr hne with h | h
        · rw [h] at hc
          cases hc.1
        · rw [h] at hc
          cases hc.2
  | removed f u' hp hr hb =>
      rw [hp] at hat
      obtain ⟨rfl, -⟩ := hat
      obtain ⟨d', n', hslot, rfl⟩ := hd.slot
      obtain ⟨d₁, n₁, -, hs₁, -, -, hg⟩ := Kernel.remove_file_spec (remove_file_ok hr)
      rw [hsrc, hslot] at hs₁
      cases hs₁
      exact hframed _ _ _ (hsh.less (x := []) (by simpa using hg)) trivial
  | unremoved f e' hp hr => exact hframed _ _ _ hsh trivial
  | walked fuel r hp hw hb =>
      rw [hp] at hat
      obtain ⟨rfl, hdir⟩ := hat
      exact hframed _ _ _ hsh ⟨hdir, doomed_of_walk hd hdir (hsrc ▸ hw)⟩
  | unwalked fuel e' hp hw => exact hframed _ _ _ hsh trivial
  | hindered f e' hp hf => exact hframed _ _ _ hsh trivial
  | worked i f r ws next failed worker y hp hw hy =>
      rw [hp] at hat
      obtain ⟨hdir, fs, ds, hdoom⟩ := hat
      cases hy with
      -- the only call of a worker that touches the tree removes a file the walk listed
      | removed idx p u' hi hr =>
          obtain ⟨x, e', -, rfl, he, -⟩ := hdoom.file_at hi
          obtain ⟨hsh', -⟩ := hsh.remove_file hd hdir he (remove_file_ok hr)
          exact hframed _ _ d.job hsh' ⟨hdir, fs, ds, hdoom⟩
      | _ => exact hframed _ _ _ hsh ⟨hdir, fs, ds, hdoom⟩
  | joined f r ws next failed hp hws =>
      rw [hp] at hat
      exact hframed _ _ d.job hsh hat
  | announced f r n failed p hp hn =>
      rw [hp] at hat
      exact hframed _ _ _ hsh hat
  | cleared f r n failed p u' hp hn hr hb =>
      rw [hp] at hat
      obtain ⟨hdir, fs, ds, hdoom⟩ := hat
      obtain ⟨x, -, rfl, hx⟩ := hdoom.dir_at hn
      obtain ⟨hsh', -⟩ := hsh.remove_dir hd hdir hx (remove_dir_ok hr)
      exact hframed _ _ _ hsh' ⟨hdir, fs, ds, hdoom⟩
  | uncleared f r n failed p e' hp hn hr =>
      rw [hp] at hat
      exact hframed _ _ d.job hsh hat
  | ended f r failed hp => exact hframed _ _ _ hsh trivial

/-! ## Everything goes

In every run in which no call fails for a reason from outside. -/

/-- A file is where it was until its turn has come, and gone after it. -/
def doomed_terms (t : FileTree Bytes) (s : Loc) (u : FileTree Bytes) :
    Pool.Terms Remover (List String) where
  waiting x := u.get (s ++ x) = t.get (s ++ x)
  held w x := match w with
    | .announce _ => u.get (s ++ x) = t.get (s ++ x)
    | .remove _ => u.get (s ++ x) = t.get (s ++ x)
    | .count _ => u.get (s ++ x) = none
    | .fail _ _ => False
    | .note _ _ => False
    | _ => True
  settled x := u.get (s ++ x) = none
  always _ := True

/-- How many of the files taken have not been reported. -/
def Remover.busy (w : Remover) : Nat := if w.idx.isSome then 1 else 0

@[simp] theorem Remover.busy_idle : Remover.idle.busy = 0 := rfl
@[simp] theorem Remover.busy_stopped : Remover.stopped.busy = 0 := rfl
@[simp] theorem Remover.busy_announce (n : Nat) : (Remover.announce n).busy = 1 := rfl
@[simp] theorem Remover.busy_remove (n : Nat) : (Remover.remove n).busy = 1 := rfl
@[simp] theorem Remover.busy_count (n : Nat) : (Remover.count n).busy = 1 := rfl

/-- The call gets through. -/
def Unhindered (_ : FileTree Bytes × Deleter) : Event → Prop
  | .walk _ => True
  | .main f => f = .none
  | .worker _ f => f = .none

/-- The deletion has ended well: everything at and below `s` is gone, and counted. -/
def Gone (s : Loc) (x : FileTree Bytes × Deleter) : Prop :=
  x.2.phase = .finished ∧ x.2.job.status = .done ∧ (∀ y, s <+: y → x.1.get y = none) ∧
    x.2.job.done_files = x.2.job.total_files ∧ x.2.job.done_dirs = x.2.job.total_dirs

/-- The files are gone, and all directories but the first `n`. -/
structure Left (t : FileTree Bytes) (src : Path) (s : Loc) (u : FileTree Bytes) (job : Job)
    (r : Removals) (fs ds : List (List String)) (n : Nat) : Prop where
  doomed : Doomed t src s r fs ds
  files : ∀ x ∈ fs, u.get (s ++ x) = none
  left : ∀ m x, m < n → ds[m]? = some x → u.get (s ++ x) = some .dir
  gone : ∀ m x, n ≤ m → ds[m]? = some x → u.get (s ++ x) = none
  le : n ≤ ds.length
  done_files : job.done_files = job.total_files
  done_dirs : job.done_dirs + n = job.total_dirs

/-- Of those there is a last one. -/
theorem Left.next {job : Job} {n : Nat} (h : Left t src s u job r fs ds (n + 1)) :
    ∃ p, r.dirs[n]? = some p := by
  have hlt : n < r.dirs.length := by
    rw [h.doomed.dirs, List.length_map]
    exact h.le
  exact ⟨r.dirs[n], List.getElem?_eq_getElem hlt⟩

/-- What holds in each phase when nothing has failed. -/
def SureAt (t : FileTree Bytes) (src : Path) (s : Loc) (u : FileTree Bytes) (job : Job) :
    Clearing → Prop
  | .queued => job.done_files = 0 ∧ job.done_dirs = 0 ∧ job.total_dirs = 0
  | .checking => job.done_files = 0 ∧ job.done_dirs = 0 ∧ job.total_dirs = 0
  | .removing => job.done_files = 0 ∧ job.done_dirs = 0 ∧ job.total_dirs = 0
  | .walking => job.done_files = 0 ∧ job.done_dirs = 0
  | .working r ws next failed => failed = 0 ∧ ∃ fs ds, Doomed t src s r fs ds ∧
      (∀ x ∈ ds, u.get (s ++ x) = some .dir) ∧
      Pool.Books Remover.idx .stopped (doomed_terms t s u) fs ws next failed ∧
      job.done_files + (ws.map Remover.busy).sum = min next fs.length ∧
      job.done_dirs = 0 ∧ job.total_files = fs.length ∧ job.total_dirs = ds.length
  | .clearing r n failed => failed = 0 ∧ ∃ fs ds, Left t src s u job r fs ds n
  | .emptying r n failed => failed = 0 ∧ ∃ fs ds, Left t src s u job r fs ds (n + 1)
  | .finished => job.status = .done ∧ (∀ y, s <+: y → u.get y = none) ∧
      job.done_files = job.total_files ∧ job.done_dirs = job.total_dirs

structure Sure (t : FileTree Bytes) (src : Path) (b : Path.Tail) (s : Loc)
    (x : FileTree Bytes × Deleter) : Prop where
  framed : Framed t src b s x
  crew : 0 < x.2.nthreads
  phase : SureAt t src s x.1 x.2.job x.2.phase

/-- A file that is there is removed. -/
theorem remove_file_runs (hd : Deletable k t src b s) (hdir : t.get s = some .dir)
    (hsh : Shrunk t s u) (hdoom : Doomed t src s r fs ds) {e : Entry Bytes}
    (he : t.get (s ++ x) = some e) (hne : e ≠ .dir) (hu : u.get (s ++ x) = t.get (s ++ x))
    (hdirs : ∀ x ∈ ds, u.get (s ++ x) = some .dir) :
    ∃ u', k.remove_file u (src.down x) = .ok u' := by
  have hin : ∀ y, t.get (s ++ y) = some .dir → u.get (s ++ y) = some .dir := by
    intro y hy
    rcases hdoom.all y _ hy with ⟨h, -⟩ | ⟨-, hmem⟩
    · exact absurd rfl h
    · exact hdirs y hmem
  have hroot : u.get s = some .dir := by
    have := hin [] (by simpa using hdir)
    simpa using this
  obtain ⟨d', n', hslot⟩ := hsh.slot_some hd hdir he
    (fun y hyx hor => hin y (t.get_of_prefix ((List.prefix_append_right_inj s).mpr hyx)
      (fun h => hor.elim (fun h' => h' (List.append_cancel_left h)) hne) he)) hroot
  have heq := hsh.slot_eq hd hdir he hslot
  rw [he] at hu
  unfold Kernel.remove_file
  rw [hslot]
  simp only [heq, hu]
  cases e with
  | dir => exact absurd rfl hne
  | file bs => exact ⟨_, rfl⟩
  | symlink tgt => exact ⟨_, rfl⟩

/-- The last directory left is empty, and is removed. -/
theorem remove_dir_runs (hd : Deletable k t src b s) (hdir : t.get s = some .dir)
    (hsh : Shrunk t s u) (hdoom : Doomed t src s r fs ds) {n : Nat} (hx : ds[n]? = some x)
    (hfiles : ∀ y ∈ fs, u.get (s ++ y) = none)
    (hleft : ∀ m y, m < n + 1 → ds[m]? = some y → u.get (s ++ y) = some .dir)
    (hgone : ∀ m y, n + 1 ≤ m → ds[m]? = some y → u.get (s ++ y) = none) :
    ∃ u', k.remove_dir u (src.down x) = .ok u' := by
  have hxd := hdoom.dir x (List.mem_of_getElem? hx)
  have horder : ∀ (i j : Nat) (y z : List String), i < j → ds[i]? = some y → ds[j]? = some z →
    ¬ z <+: y := by
    intro i j y z hij hy hz
    obtain ⟨hi, rfl⟩ := List.getElem?_eq_some_iff.mp hy
    obtain ⟨hj, rfl⟩ := List.getElem?_eq_some_iff.mp hz
    exact List.pairwise_iff_getElem.mp hdoom.order i j hi hj hij
  -- what is above it was listed before it
  have hin : ∀ y, y <+: x → u.get (s ++ y) = some .dir := by
    intro y hyx
    have hyd : t.get (s ++ y) = some .dir := by
      by_cases hyx' : y = x
      · rw [hyx']
        exact hxd
      · exact t.get_of_prefix ((List.prefix_append_right_inj s).mpr hyx)
          (fun h => hyx' (List.append_cancel_left h)) hxd
    rcases hdoom.all y _ hyd with ⟨h, -⟩ | ⟨-, hmem⟩
    · exact absurd rfl h
    · obtain ⟨m, hm⟩ := List.mem_iff_getElem?.mp hmem
      refine hleft m y ?_ hm
      by_contra hlt
      exact horder n m x y (by omega) hx hm hyx
  have hroot : u.get s = some .dir := by
    have := hin [] (List.nil_prefix)
    simpa using this
  obtain ⟨d', n', hslot⟩ := hsh.slot_some hd hdir hxd (fun y hyx _ => hin y hyx) hroot
  have heq := hsh.slot_eq hd hdir hxd hslot
  have hempty : u.children (d' ++ [n']) = [] := by
    rw [children_eq_nil, heq]
    intro c
    by_contra hc
    obtain ⟨e, he⟩ := Option.ne_none_iff_exists'.mp hc
    rw [List.append_assoc] at he
    have het := hsh.get_of_some he
    rcases hdoom.all _ _ het with ⟨-, hmem⟩ | ⟨rfl, hmem⟩
    · rw [hfiles _ hmem] at he
      cases he
    · obtain ⟨m, hm⟩ := List.mem_iff_getElem?.mp hmem
      by_cases hlt : n + 1 ≤ m
      · rw [hgone m _ hlt hm] at he
        cases he
      · by_cases hmn : m = n
        · rw [hmn, hx] at hm
          have := congrArg List.length (Option.some.inj hm)
          rw [List.length_append, List.length_singleton] at this
          omega
        · exact horder m n _ x (by omega) hm hx (List.prefix_append _ _)
  have hux : u.get (d' ++ [n']) = some .dir := by
    rw [heq]
    exact hin x List.prefix_rfl
  unfold Kernel.remove_dir
  rw [hslot]
  simp only [hux, hempty, if_true]
  exact ⟨_, rfl⟩

theorem Unhindered.main {y : FileTree Bytes × Deleter} {f : Fault}
    (h : Unhindered y (.main f)) : f = .none := h

/-- One event keeps everything in order. -/
theorem sure_step (hd : Deletable k t src b s) {x x' : FileTree Bytes × Deleter} {e : Event}
    (h : Sure t src b s x) (he : Unhindered x e) (hs : deleting k x e = some x') :
    Sure t src b s x' := by
  have hframed := framed_step hd h.framed hs
  obtain ⟨u, d⟩ := x
  obtain ⟨⟨hsrc, htail, hsh, hfat⟩, hcrew, hat⟩ := h
  dsimp only at hsrc htail hsh hfat hcrew hat
  cases Deleter.step_cases hs with
  | started f hp =>
      rw [hp] at hat
      exact ⟨hframed, hcrew, hat⟩
  | single f hp hc hb =>
      rw [hp] at hat
      exact ⟨hframed, hcrew, hat⟩
  | many f hp hc =>
      rw [hp] at hat
      exact ⟨hframed, hcrew, hat.1, hat.2.1⟩
  | removed f u' hp hr hb =>
      rw [hp] at hat hfat
      obtain ⟨rfl, hnd⟩ := hfat
      obtain ⟨hf0, hd0, ht0⟩ := hat
      obtain ⟨d', n', hslot, rfl⟩ := hd.slot
      obtain ⟨d₁, n₁, -, hs₁, -, -, hg⟩ := Kernel.remove_file_spec (remove_file_ok hr)
      rw [hsrc, hslot] at hs₁
      cases hs₁
      refine ⟨hframed, hcrew, rfl, fun y hy => ?_, ?_, ?_⟩
      · obtain ⟨z, rfl⟩ := hy
        rw [hg]
        split
        · rfl
        · rename_i hz
          exact u.get_below (fun hz0 => hz (by rw [hz0, List.append_nil])) hnd
      · show d.job.done_files + 1 = 1
        omega
      · exact hd0.trans ht0.symm
  | unremoved f e' hp hr =>
      -- the entry is there, and is no directory
      exfalso
      obtain rfl : f = .none := he
      rw [hp] at hfat
      obtain ⟨rfl, hnd⟩ := hfat
      obtain ⟨d', n', hslot, rfl⟩ := hd.slot
      obtain ⟨e, hent⟩ := Option.ne_none_iff_exists'.mp hd.there
      rw [hsrc, htail, hd.tail.resolve_right fun h => hnd h.2, Fault.remove_file_at_none] at hr
      simp only [remove_file, Fault.errno, Kernel.remove_file, hslot, hent] at hr
      cases e with
      | dir => exact hnd hent
      | file bs => cases hr
      | symlink tgt => cases hr
  | walked fuel r hp hw hb =>
      rw [hp] at hat hfat
      obtain ⟨rfl, hdir⟩ := hfat
      obtain ⟨fs, ds, hdoom⟩ := doomed_of_walk hd hdir (hsrc ▸ hw)
      refine ⟨hframed, hcrew, rfl, fs, ds, hdoom, hdoom.dir, ?_, ?_, hat.2, ?_, ?_⟩
      · exact Pool.Books.start hcrew rfl (by simp) (fun _ _ => rfl) fun _ _ => trivial
      · show d.job.done_files + _ = _
        rw [hat.1]
        simp
      · show r.files.length = _
        rw [hdoom.files, List.length_map]
      · show r.dirs.length = _
        rw [hdoom.dirs, List.length_map]
  | unwalked fuel e' hp hw =>
      exfalso
      rw [hp] at hfat
      obtain ⟨rfl, hdir⟩ := hfat
      rw [hsrc, hd.walk_from hdir] at hw
      obtain ⟨d', n', hslot, rfl⟩ := hd.slot
      obtain ⟨vs', hvs, hmap⟩ := Option.map_eq_some_iff.mp hw
      obtain ⟨vs, rfl, -⟩ := walk_spec (Names.of_slot hslot hdir (hd.plain hdir))
        (hd.plain hdir) hvs
      cases hmap
  | hindered f e' hp hf =>
      obtain rfl : f = .none := he
      cases hf
  | worked i f r ws next failed worker y hp hw hy =>
      obtain rfl : f = .none := he
      rw [hp] at hat hfat
      obtain ⟨hdir, -⟩ := hfat
      obtain ⟨rfl, fs, ds, hdoom, hdirs, hB, hcount, hd0, htf, htd⟩ := hat
      have hsum : ∀ w', ((ws.set i w').map Remover.busy).sum + worker.busy
          = (ws.map Remover.busy).sum + w'.busy := fun w' => Pool.sum_set Remover.busy w' hw
      cases hy with
      | drained hi =>
          have hnone : fs[next]? = none := by
            rw [hdoom.files, List.getElem?_map] at hi
            exact Option.map_eq_none_iff.mp hi
          have hlen := List.getElem?_eq_none_iff.mp hnone
          refine ⟨hframed, hcrew, rfl, fs, ds, hdoom, hdirs, hB.drained hw rfl rfl hnone, ?_, hd0,
            htf, htd⟩
          have := hsum .stopped
          rw [Remover.busy_idle, Remover.busy_stopped] at this
          show d.job.done_files + ((ws.set i Remover.stopped).map Remover.busy).sum
            = min (next + 1) fs.length
          omega
      | taken p hi =>
          obtain ⟨x, -, hx, -, -, -⟩ := hdoom.file_at hi
          have hlt := (List.getElem?_eq_some_iff.mp hx).1
          refine ⟨hframed, hcrew, rfl, fs, ds, hdoom, hdirs,
            hB.taken hw rfl hx rfl rfl fun h => h, ?_, hd0, htf, htd⟩
          have := hsum (.announce next)
          rw [Remover.busy_idle, Remover.busy_announce] at this
          show d.job.done_files + ((ws.set i (.announce next)).map Remover.busy).sum
            = min (next + 1) fs.length
          omega
      | announced idx p hi =>
          obtain ⟨x, -, hx, -, -, -⟩ := hdoom.file_at hi
          obtain ⟨-, y, hy, hheld⟩ := hB.held i _ idx hw rfl
          rw [hx] at hy
          cases hy
          refine ⟨hframed, hcrew, rfl, fs, ds, hdoom, hdirs, hB.hold hw rfl hx rfl rfl
            (Nat.le_refl _) hheld trivial fun m y _ _ => .refl _ _, ?_, hd0, htf, htd⟩
          have := hsum (.remove idx)
          rw [Remover.busy_announce, Remover.busy_remove] at this
          show d.job.done_files + ((ws.set i (.remove idx)).map Remover.busy).sum
            = min next fs.length
          omega
      | removed idx p u' hi hr =>
          obtain ⟨x, e, hx, rfl, hxe, hne⟩ := hdoom.file_at hi
          obtain ⟨-, hg⟩ := hsh.remove_file hd hdir hxe (remove_file_ok hr)
          have hother : ∀ y, y ≠ x → u'.get (s ++ y) = u.get (s ++ y) := fun y hy => by
            rw [hg, if_neg fun h => hy (List.append_cancel_left h)]
          refine ⟨hframed, hcrew, rfl, fs, ds, hdoom, fun y hy => ?_, ?_, ?_, hd0, htf, htd⟩
          · rw [hother]
            · exact hdirs y hy
            · rintro rfl
              rw [hdoom.dir y hy] at hxe
              exact hne (Option.some.inj hxe).symm
          · refine hB.hold hw rfl hx rfl rfl (Nat.le_refl _) ?_ trivial fun m y hm hy => ?_
            · show u'.get (s ++ x) = none
              rw [hg, if_pos rfl]
            · have hyx : y ≠ x := by
                rintro rfl
                exact hm ((List.getElem?_inj (List.getElem?_eq_some_iff.mp hy).1
                  hdoom.nodup).mp (hy.trans hx.symm))
              have ho := hother y hyx
              refine ⟨fun h => ?_, fun w h => ?_, fun h => ?_, id⟩
              · exact ho.trans h
              · cases w with
                | announce n => exact ho.trans h
                | remove n => exact ho.trans h
                | count n => exact ho.trans h
                | fail n e => exact h
                | note n e => exact h
                | _ => trivial
              · exact ho.trans h
          · have := hsum (.count idx)
            rw [Remover.busy_remove, Remover.busy_count] at this
            show d.job.done_files + ((ws.set i (.count idx)).map Remover.busy).sum
              = min next fs.length
            omega
      | unremoved idx p e' hi hr =>
          exfalso
          obtain ⟨x, e, hx, rfl, hxe, hne⟩ := hdoom.file_at hi
          obtain ⟨-, y, hy, hheld⟩ := hB.held i _ idx hw rfl
          rw [hx] at hy
          cases hy
          obtain ⟨u', hu'⟩ := remove_file_runs hd hdir hsh hdoom hxe hne hheld hdirs
          simp only [remove_file, Fault.errno, hu'] at hr
          cases hr
      | counted idx =>
          refine ⟨hframed, hcrew, rfl, fs, ds, hdoom, hdirs, ?_, ?_, hd0, htf, htd⟩
          · exact hB.reported hw rfl rfl (by simp) (Nat.le_refl _) fun _ _ h => .inr h
          · have := hsum .idle
            rw [Remover.busy_idle, Remover.busy_count] at this
            show d.job.done_files + 1 + ((ws.set i Remover.idle).map Remover.busy).sum
              = min next fs.length
            omega
      | failed idx e' =>
          exfalso
          obtain ⟨-, y, -, hheld⟩ := hB.held i _ idx hw rfl
          exact hheld
      | noted idx p e' hi =>
          exfalso
          obtain ⟨-, y, -, hheld⟩ := hB.held i _ idx hw rfl
          exact hheld
  | joined f r ws next failed hp hws =>
      rw [hp] at hat
      obtain ⟨rfl, fs, ds, hdoom, hdirs, hB, hcount, hd0, htf, htd⟩ := hat
      refine ⟨hframed, hcrew, rfl, fs, ds, hdoom, fun x hx => hB.over rfl hws hx, ?_, ?_, ?_, ?_,
        ?_⟩
      · exact fun m x _ hx => hdirs x (List.mem_of_getElem? hx)
      · intro m x hm hx
        have := (List.getElem?_eq_some_iff.mp hx).1
        rw [hdoom.dirs, List.length_map] at hm
        omega
      · rw [hdoom.dirs, List.length_map]
      · -- nobody is busy, and the list is used up
        have hzero : (ws.map Remover.busy).sum = 0 := by
          rw [List.sum_eq_zero_iff_forall_eq_nat]
          intro b hb
          obtain ⟨w, hw, rfl⟩ := List.mem_map.mp hb
          rw [hws w hw]
          rfl
        obtain ⟨w, ws', hcons⟩ := List.exists_cons_of_ne_nil hB.crew
        have hstop : Remover.stopped ∈ ws := by
          have hw : w ∈ ws := by rw [hcons]; exact List.mem_cons_self
          exact hws w hw ▸ hw
        have := hB.done hstop
        show d.job.done_files = d.job.total_files
        omega
      · show d.job.done_dirs + _ = d.job.total_dirs
        rw [hdoom.dirs, List.length_map]
        omega
  | announced f r n failed p hp hn =>
      rw [hp] at hat
      obtain ⟨rfl, fs, ds, hdoom, hfiles, hleft, hgone, hle, hdf, hdd⟩ := hat
      exact ⟨hframed, hcrew, rfl, fs, ds, hdoom, hfiles, hleft, hgone, hle, hdf, hdd⟩
  | cleared f r n failed p u' hp hn hr hb =>
      rw [hp] at hat hfat
      obtain ⟨hdir, -⟩ := hfat
      obtain ⟨rfl, fs, ds, hdoom, hfiles, hleft, hgone, hle, hdf, hdd⟩ := hat
      obtain ⟨x, hx, rfl, hxd⟩ := hdoom.dir_at hn
      obtain ⟨-, hg⟩ := hsh.remove_dir hd hdir hxd (remove_dir_ok hr)
      refine ⟨hframed, hcrew, rfl, fs, ds, hdoom, fun y hy => ?_, ?_, ?_, by omega, hdf, ?_⟩
      · rw [hg]
        split
        · rfl
        · exact hfiles y hy
      · intro m y hm hy
        rw [hg, if_neg]
        · exact hleft m y (by omega) hy
        · intro h
          obtain rfl := List.append_cancel_left h
          obtain ⟨hmlt, hmy⟩ := List.getElem?_eq_some_iff.mp hy
          obtain ⟨hnlt, hnx⟩ := List.getElem?_eq_some_iff.mp hx
          refine List.pairwise_iff_getElem.mp hdoom.order m n hmlt hnlt hm ?_
          rw [hmy, hnx]
      · intro m y hm hy
        rw [hg]
        split
        · rfl
        · rename_i hne
          by_cases hmn : m = n
          · rw [hmn, hx] at hy
            exact absurd (by rw [Option.some.inj hy]) hne
          · exact hgone m y (by omega) hy
      · show d.job.done_dirs + 1 + n = d.job.total_dirs
        omega
  | uncleared f r n failed p e' hp hn hr =>
      exfalso
      obtain rfl : f = .none := he
      rw [hp] at hat hfat
      obtain ⟨hdir, -⟩ := hfat
      obtain ⟨rfl, fs, ds, hdoom, hfiles, hleft, hgone, -⟩ := hat
      obtain ⟨x, hx, rfl, -⟩ := hdoom.dir_at hn
      obtain ⟨u', hu'⟩ := remove_dir_runs hd hdir hsh hdoom hx hfiles hleft hgone
      rw [Fault.remove_dir_at, if_neg (hd.dir_tail htail n)] at hr
      simp only [remove_dir, Fault.errno, hu'] at hr
      cases hr
  | ended f r failed hp =>
      rw [hp] at hat
      obtain ⟨rfl, fs, ds, hdoom, hfiles, -, hgone, -, hdf, hdd⟩ := hat
      refine ⟨hframed, hcrew, rfl, fun y hy => ?_, hdf, hdd⟩
      obtain ⟨x, rfl⟩ := hy
      by_contra hne
      obtain ⟨e, hu⟩ := Option.ne_none_iff_exists'.mp hne
      rcases hdoom.all x e (hsh.get_of_some hu) with ⟨-, hmem⟩ | ⟨-, hmem⟩
      · exact hne (hfiles x hmem)
      · obtain ⟨m, hm⟩ := List.mem_iff_getElem?.mp hmem
        exact hne (hgone m x (Nat.zero_le _) hm)

/-! ## It ends -/

/-- How many calls a worker is from having nothing, and from stopping. -/
def Remover.weight : Remover → Nat
  | .idle => 1
  | .announce _ => 5
  | .remove _ => 4
  | .count _ => 2
  | .fail _ _ => 3
  | .note _ _ => 2
  | .stopped => 0

/-- What is left to do: the phases to come, and the calls in this one. -/
def to_do (x : FileTree Bytes × Deleter) : Nat × Nat :=
  match x.2.phase with
  | .queued => (6, 0)
  | .checking => (5, 0)
  | .removing => (4, 0)
  | .walking => (4, 0)
  | .working r ws next _ => (3, 5 * (r.files.length - next) + (ws.map Remover.weight).sum)
  | .clearing _ n _ => (2, 2 * n)
  | .emptying _ n _ => (2, 2 * n + 1)
  | .finished => (0, 0)

theorem to_do_less {x x' : FileTree Bytes × Deleter} {e : Event} (hs : deleting k x e = some x') :
    Prod.Lex (· < ·) (· < ·) (to_do x') (to_do x) := by
  obtain ⟨u, d⟩ := x
  cases Deleter.step_cases hs with
  | worked i f r ws next failed worker y hp hw hy =>
      dsimp only at hp
      simp only [to_do, hp]
      -- a worker stays in the phase; its own weight, or the number of files not yet taken,
      -- goes down
      refine Prod.Lex.right _ ?_
      have hsum : ∀ w', ((ws.set i w').map Remover.weight).sum + worker.weight
          = (ws.map Remover.weight).sum + w'.weight := fun w' => Pool.sum_set Remover.weight w' hw
      cases hy with
      | drained hi =>
          have := hsum .stopped
          simp only [Remover.weight] at this ⊢
          omega
      | taken p hi =>
          have := hsum (.announce next)
          have hlt := (List.getElem?_eq_some_iff.mp hi).1
          simp only [Remover.weight] at this ⊢
          omega
      | announced idx p hi =>
          have := hsum (.remove idx)
          simp only [Remover.weight] at this ⊢
          omega
      | removed idx p u' hi hr =>
          have := hsum (.count idx)
          simp only [Remover.weight] at this ⊢
          omega
      | unremoved idx p e' hi hr =>
          have := hsum (.fail idx e')
          simp only [Remover.weight] at this ⊢
          omega
      | counted idx =>
          have := hsum .idle
          simp only [Remover.weight] at this ⊢
          omega
      | failed idx e' =>
          have := hsum (.note idx e')
          simp only [Remover.weight] at this ⊢
          omega
      | noted idx p e' hi =>
          have := hsum .idle
          simp only [Remover.weight] at this ⊢
          omega
  -- each directory costs two events, the second of which takes it off the count
  | announced f r n failed p hp hn =>
      dsimp only at hp
      simp only [to_do, hp]
      exact Prod.Lex.right _ (by omega)
  | cleared f r n failed p u' hp hn hr hb =>
      dsimp only at hp
      simp only [to_do, hp]
      exact Prod.Lex.right _ (Nat.lt_succ_self _)
  | uncleared f r n failed p e' hp hn hr =>
      dsimp only at hp
      simp only [to_do, hp]
      exact Prod.Lex.right _ (Nat.lt_succ_self _)
  -- every other event enters the next phase
  | started f hp =>
      dsimp only at hp
      simp only [to_do, hp]
      exact Prod.Lex.left _ _ (by decide)
  | single f hp hc hb =>
      dsimp only at hp
      simp only [to_do, hp]
      exact Prod.Lex.left _ _ (by decide)
  | many f hp hc =>
      dsimp only at hp
      simp only [to_do, hp]
      exact Prod.Lex.left _ _ (by decide)
  | removed f u' hp hr hb =>
      dsimp only at hp
      simp only [to_do, hp]
      exact Prod.Lex.left _ _ (by decide)
  | unremoved f e' hp hr =>
      dsimp only at hp
      simp only [to_do, hp]
      exact Prod.Lex.left _ _ (by decide)
  | walked fuel r hp hw hb =>
      dsimp only at hp
      simp only [to_do, hp]
      exact Prod.Lex.left _ _ (by decide)
  | unwalked fuel e' hp hw =>
      dsimp only at hp
      simp only [to_do, hp]
      exact Prod.Lex.left _ _ (by decide)
  | hindered f e' hp hf =>
      dsimp only at hp
      simp only [to_do, hp]
      exact Prod.Lex.left _ _ (by decide)
  | joined f r ws next failed hp hws =>
      dsimp only at hp
      simp only [to_do, hp]
      exact Prod.Lex.left _ _ (by decide)
  | ended f r failed hp =>
      dsimp only at hp
      simp only [to_do, hp]
      exact Prod.Lex.left _ _ (by decide)

/-- A deletion that has not ended has a call to make. -/
theorem sure_goes_on (hd : Deletable k t src b s) {x : FileTree Bytes × Deleter}
    (h : Sure t src b s x) : Gone s x ∨ ∃ e x', Unhindered x e ∧ deleting k x e = some x' := by
  obtain ⟨u, d⟩ := x
  obtain ⟨⟨hsrc, htail, hsh, hfat⟩, hcrew, hat⟩ := h
  dsimp only at hsrc htail hsh hfat hcrew hat
  have hcall : ∀ e, Unhindered (u, d) e → (deleting k (u, d) e).isSome = true →
      ∃ e x', Unhindered (u, d) e ∧ deleting k (u, d) e = some x' := fun e he hx =>
    let ⟨x', hx'⟩ := Option.isSome_iff_exists.mp hx
    ⟨e, x', he, hx'⟩
  have hmain := hcall (.main .none) rfl
  cases hp : d.phase with
  | finished =>
      rw [hp] at hat
      exact .inl ⟨hp, hat⟩
  | queued => exact .inr (hmain (by simp [deleting, Deleter.step, hp]))
  | checking =>
      refine .inr ?_
      by_cases hc : (k.is_file u (d.src.tailed d.src_tail) ||
          k.is_symlink u (d.src.tailed d.src_tail)) = true
      · exact hmain (by simp [deleting, Deleter.step, hp, hc])
      · exact hmain (by simp [deleting, Deleter.step, hp, hc])
  | removing =>
      refine .inr ?_
      cases hr : remove_file k u d.src (Fault.none.remove_file_at k u d.src d.src_tail) with
      | ok u' => exact hmain (by simp [deleting, Deleter.step, hp, hr])
      | error e => exact hmain (by simp [deleting, Deleter.step, hp, hr])
  | walking =>
      rw [hp] at hfat
      obtain ⟨rfl, hdir⟩ := hfat
      obtain ⟨d', n', hslot, rfl⟩ := hd.slot
      -- no path of the tree is longer than this
      have hends : walk k u ((u.dom.map List.length).foldr max 0 + 1) src [] ≠ none :=
        walk_ends (Names.of_slot hslot hdir (hd.plain hdir)) (hd.plain hdir) (by omega)
      obtain ⟨res, hres⟩ := Option.ne_none_iff_exists'.mp hends
      obtain ⟨vs, rfl, -⟩ := walk_spec (Names.of_slot hslot hdir (hd.plain hdir))
        (hd.plain hdir) hres
      refine .inr (hcall (.walk ((u.dom.map List.length).foldr max 0 + 1)) trivial ?_)
      simp [deleting, Deleter.step, hp, hd.walk_from hdir, walk_delete, hsrc, hres, Except.map]
  | working r ws next failed =>
      rw [hp] at hat
      obtain ⟨rfl, fs, ds, hdoom, -, hB, -⟩ := hat
      refine .inr ?_
      by_cases hall : ∀ w ∈ ws, w = .stopped
      · have : ws.all (fun w => decide (w = .stopped)) = true := by simpa using hall
        exact hmain (by simp only [deleting, Deleter.step, hp, this, if_true, Option.isSome_some])
      · obtain ⟨w, hw⟩ := not_forall.mp hall
        rw [Classical.not_imp] at hw
        obtain ⟨hmem, hne⟩ := hw
        obtain ⟨i, hi⟩ := List.mem_iff_getElem?.mp hmem
        have hfile : ∀ n, w.idx = some n → ∃ p, r.files[n]? = some p := by
          intro n hn
          obtain ⟨-, x, hx, -⟩ := hB.held i w n hi hn
          exact ⟨src.down x, by rw [hdoom.files, List.getElem?_map, hx]; rfl⟩
        have hwork : (Deleter.work k u d r next 0 .none w).isSome = true := by
          cases w with
          | stopped => exact absurd rfl hne
          | idle =>
              cases hf : r.files[next]? with
              | none => simp [Deleter.work, hf]
              | some p => simp [Deleter.work, hf]
          | announce n =>
              obtain ⟨p, hf⟩ := hfile n rfl
              simp [Deleter.work, hf]
          | remove n =>
              obtain ⟨p, hf⟩ := hfile n rfl
              cases hr : remove_file k u p .none with
              | ok u' => simp [Deleter.work, hf, hr]
              | error e => simp [Deleter.work, hf, hr]
          | count n => rfl
          | fail n e => rfl
          | note n e =>
              obtain ⟨p, hf⟩ := hfile n rfl
              simp [Deleter.work, hf]
        obtain ⟨y, hy⟩ := Option.isSome_iff_exists.mp hwork
        exact hcall (.worker i .none) rfl (by simp [deleting, Deleter.step, hp, hi, hy])
  | clearing r n failed =>
      refine .inr ?_
      cases n with
      | zero => exact hmain (by simp [deleting, Deleter.step, hp])
      | succ n =>
          rw [hp] at hat
          obtain ⟨-, fs, ds, hleft⟩ := hat
          obtain ⟨p, hn⟩ := hleft.next
          exact hmain (by simp [deleting, Deleter.step, hp, hn])
  | emptying r n failed =>
      refine .inr ?_
      rw [hp] at hat
      obtain ⟨-, fs, ds, hleft⟩ := hat
      obtain ⟨p, hn⟩ := hleft.next
      cases hr : remove_dir k u p (Fault.none.remove_dir_at k u p (d.dir_tail n)) with
      | ok u' => exact hmain (by simp [deleting, Deleter.step, hp, hn, hr])
      | error e => exact hmain (by simp [deleting, Deleter.step, hp, hn, hr])

end

/-! ## Deletions are exact -/

/-- **A deletion is exact** unless a link inside the tree leads to a directory,
or the tree is reached through itself or under no name, or by a path that has a `.` behind its
last name, or separators there and a link in front of them. Whatever fails on the
way, nothing outside the tree changes and nothing in it but by going away; and
when no call fails for a reason from outside, every run comes to an end, with
nothing left and everything counted. -/
theorem delete_exact (k : Kernel) (h : Host) (t : FileTree Bytes) (src : PathBuf) (s : Loc)
    (hd : Deletable k t src.path src.tail s) :
    (∀ x, Reach (deleting k) Any (t, Deleter.start h src) x →
      (∀ y, ¬ s <+: y → x.1.get y = t.get y) ∧ ∀ y, x.1.get y = t.get y ∨ x.1.get y = none) ∧
    Ends (deleting k) Unhindered (Gone s) (t, Deleter.start h src) := by
  have hframed : Framed t src.path src.tail s (t, Deleter.start h src) :=
    ⟨rfl, rfl, Shrunk.refl, show FramedAt t src.path s t .queued from rfl⟩
  refine ⟨fun x hx => ?_, ?_⟩
  · have hinv := hx.inv hframed fun _ _ _ h _ hs => framed_step hd h hs
    exact ⟨hinv.shrunk.out, hinv.shrunk.sub⟩
  · exact ends_of_measure (Prod.lex Nat.lt_wfRel Nat.lt_wfRel).wf to_do
      (fun _ _ _ h he hs => sure_step hd h he hs) (fun _ h => sure_goes_on hd h)
      (fun _ _ _ _ _ hs => to_do_less hs) ⟨hframed, h.nthreads_pos, rfl, rfl, rfl⟩

/-- A directory with a file and a dangling link in it. -/
def tree_c : FileTree Bytes :=
  ((FileTree.empty.with_ [] "a" .dir).with_ ["a"] "f" (.file [1])).with_ ["a"] "l"
    (.symlink (.abs ["x"]))

/-- It is deleted exactly, by the path with a separator at its end too. -/
theorem delete_exact_tree : Deletable box tree_c (.abs ["a"]) .slash ["a"] ∧
    Ends (deleting box) Unhindered (Gone ["a"])
      (tree_c, Deleter.start box_host ⟨.abs ["a"], "/a/", .slash⟩) := by
  have hd : Deletable box tree_c (.abs ["a"]) .slash ["a"] := by
    refine ⟨⟨[], "a", by decide, rfl⟩, by decide, fun _ => ?_, fun _ => by decide,
      fun _ => by decide, .inr ⟨rfl, by decide⟩⟩
    intro d n tgt _ hg hleads
    -- the only link is the dangling one
    have hmem : d ++ [n] ∈ tree_c.dom := tree_c.mem_dom hg
    have hcase : d ++ [n] = ["a", "l"] := by
      have hsym : tree_c.linkAt (d ++ [n]) = some tgt := linkAt_eq_some.mpr hg
      revert hsym hmem
      generalize d ++ [n] = y
      intro hmem hsym
      have : ∀ y ∈ tree_c.dom, (tree_c.linkAt y).isSome → y = ["a", "l"] := by decide
      exact this y hmem (by rw [hsym]; rfl)
    obtain ⟨rfl, rfl⟩ : d = ["a"] ∧ n = "l" := by
      have := List.append_inj' (show d ++ [n] = ["a"] ++ ["l"] from hcase) rfl
      exact ⟨this.1, List.singleton_inj.mp this.2⟩
    have hdir := Kernel.is_dir_of_leads (k := box) (p := .abs ["a", "l"]) (by decide) hleads
    have hno : box.is_dir tree_c (.abs ["a", "l"]) = false := by decide
    rw [hno] at hdir
    cases hdir
  exact ⟨hd, (delete_exact box box_host tree_c ⟨.abs ["a"], "/a/", .slash⟩ ["a"] hd).2⟩

/-- A directory that holds a link to another directory, with a file in that. -/
def tree_d : FileTree Bytes :=
  (((FileTree.empty.with_ [] "a" .dir).with_ ["a"] "l" (.symlink (.abs ["b"]))).with_
    [] "b" .dir).with_
    ["b"] "f" (.file [1])

/-- Deleting the first removes the file from the second, and fails. -/
theorem delete_through_link :
    ¬ ∀ (k : Kernel) (h : Host) (t : FileTree Bytes) (src : PathBuf) (s : Loc),
    k.entry_at t src.path = some s → t.get s ≠ none →
    (∀ x, Reach (deleting k) Any (t, Deleter.start h src) x →
      (∀ y, ¬ s <+: y → x.1.get y = t.get y) ∧ ∀ y, x.1.get y = t.get y ∨ x.1.get y = none) ∧
    Ends (deleting k) Unhindered (Gone s) (t, Deleter.start h src) := by
  intro hall
  have hrun : (exec (deleting box) (tree_d, Deleter.start box_host (.abs ["a"]))
      [.main .none, .main .none, .walk 3, .worker 0 .none, .worker 0 .none,
        .worker 0 .none]).map
        (fun x => x.1.get ["b", "f"]) = some none := by decide
  obtain ⟨x, hx, hout⟩ := Option.map_eq_some_iff.mp hrun
  have hframe := ((hall box box_host tree_d (.abs ["a"]) ["a"] (by decide) (by decide)).1 x
    (reach_of_exec hx)).1 ["b", "f"] (by decide)
  rw [hout] at hframe
  exact absurd hframe (by decide)

end WebDavs.Mover
