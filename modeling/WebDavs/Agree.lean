/-
The two ways of a move.

A move either renames the whole tree in one call, or makes the directories of
the destination, renames the files into them one by one and removes what is left
of the source. Where no link at or below the source leads to a directory both
leave the same tree, whatever the order of the workers. Where one does, the walk
goes through it as if it were a directory: the second way makes a directory of
it, the first moves the link.

`Apart` is what the success of the one rename says about the two places. `Going`
is what is known of the tree while the files go over, links or no links, and
`Parting` is what is known besides when there are none.
-/
import WebDavs.Pool
import WebDavs.Steps
import WebDavs.Posix.Below
import WebDavs.MoveSafe

set_option autoImplicit false

namespace WebDavs.Mover

open WebDavs.Posix WebDavs.Posix.FileTree WebDavs.Steps

/-- Every call but the rename of the whole does what it is asked. -/
def ByFiles (k : Kernel) (s : FileTree Bytes × Runner) (e : Event) : Prop :=
  match s.2.phase, e with
  | .walking, .walk fuel =>
      ∃ l, walk_from k s.1 s.2.src s.2.src_tail (walk_files k s.1 fuel s.2.src) = some (.ok l)
  | .walking, .main _ => False
  | .renaming _, .main f => f.errno ≠ none
  | .making l n, .main f => ∀ rel, l.dirs[n]? = some rel →
      (create_dir_all k s.1 (s.2.dst.down rel)
        (f.create_dir_all_at k s.1 (s.2.dst.down rel) (s.2.target_tail rel))).2 = none
  | .working l ws _ _, .worker i f => ∀ task sf rel, ws[i]? = some (.rename task) →
      l.files[task.idx]? = some (sf, rel) → ∃ t', rename k s.1 sf (s.2.dst.down rel)
        (f.rename_at k s.1 sf .none (s.2.dst.down rel) (s.2.target_tail rel)) = .ok t'
  | .cleaning _ _, .main f => f = .none
  | _, _ => True

/-! ## The two places -/

/-- The entry `S` that `src` names and the place `D` that `dst` names, when the
one may be renamed to the other and nothing is to be reached at the other. -/
structure Apart (k : Kernel) (t : FileTree Bytes) (src dst : Path) (d : Loc) (n : String)
    (d' : Loc) (n' : String) : Prop where
  src_slot : k.slot t src = some (d, n)
  src_there : t.get (d ++ [n]) ≠ none
  dst_slot : k.slot t dst = some (d', n')
  free : ∀ e, t.get (d' ++ [n']) = some e → ∃ tgt, e = .symlink tgt
  dead : ¬ t.LeadsToDir k.links d' n'
  other : d ++ [n] ≠ d' ++ [n']
  outside : ¬ d ++ [n] <+: d'

section

variable {k : Kernel} {t u u' : FileTree Bytes} {src dst : Path} {d d' : Loc} {n n' : String}
variable {l : Listing}

/-- Two names for one slot lead to one place. -/
theorem exists_of_same_slot {p q : Path} (hp : k.slot t p = some (d, n))
    (hq : k.slot t q = some (d, n)) (h : k.exists_ t p = true) : k.exists_ t q = true := by
  obtain ⟨p', rfl, hp', -⟩ := Kernel.slot_spec hp
  obtain ⟨q', rfl, hq', -⟩ := Kernel.slot_spec hq
  have hsame : k.stat t (p'.child n) = k.stat t (q'.child n) := by
    rw [Kernel.stat_child, Kernel.stat_child, hp', hq']
  rwa [Kernel.exists_, ← hsame]

theorem apart_of_rename (hsrc : k.exists_ t src = true) (hdst : k.exists_ t dst = false)
    (hr : k.rename t src dst = .ok u) :
    ∃ d n d' n', Apart k t src dst d n d' n' ∧
      ∀ x, u.get x = if d' ++ [n'] <+: x then t.get (d ++ [n] ++ x.drop (d' ++ [n']).length)
        else if d ++ [n] <+: x then none else t.get x := by
  obtain ⟨d, n, d', n', e, hs, hs', he, -, -, hcase⟩ := Kernel.rename_spec hr
  rcases hcase with ⟨heq, -⟩ | ⟨hne, hout, -, -, hget⟩
  · -- a source that is there would be there under its other name
    obtain ⟨rfl, hn⟩ := List.append_inj' heq rfl
    obtain rfl := List.singleton_inj.mp hn
    rw [exists_of_same_slot hs hs' hsrc] at hdst
    cases hdst
  · refine ⟨d, n, d', n', ⟨hs, by simp [he], hs', ?_, ?_, hne, hout⟩, hget⟩
    · exact fun e' => Kernel.link_of_not_exists hs' hdst
    · intro hl
      obtain ⟨x, hx, -⟩ := Kernel.is_dir_iff.mp (Kernel.is_dir_of_leads hs' hl)
      rw [Kernel.exists_, hx] at hdst
      cases hdst

/-- Nothing is below the free place, and at most a link is at it. -/
theorem Apart.empty (h : Apart k t src dst d n d' n') {r : List String} (hr : r ≠ []) :
    t.get (d' ++ [n'] ++ r) = none := by
  apply t.get_below hr
  intro hd
  obtain ⟨tgt, htgt⟩ := h.free _ hd
  cases htgt

/-- Neither place is below the other. -/
theorem Apart.incomparable (h : Apart k t src dst d n d' n') (r s : List String) :
    d ++ [n] ++ r ≠ d' ++ [n'] ++ s := by
  intro heq
  rcases List.prefix_or_prefix_of_prefix (List.prefix_append (d ++ [n]) r)
    (heq ▸ List.prefix_append (d' ++ [n']) s) with hp | hp
  · rcases List.prefix_concat_iff.mp hp with he | hp
    · exact h.other he
    · exact h.outside hp
  · obtain ⟨z, hz⟩ := hp
    by_cases hz0 : z = []
    · rw [hz0, List.append_nil] at hz
      exact h.other hz.symm
    · apply h.src_there
      rw [← hz]
      exact h.empty hz0

theorem Apart.not_below (h : Apart k t src dst d n d' n') (s : List String) :
    ¬ d ++ [n] <+: d' ++ [n'] ++ s := fun ⟨r, hr⟩ => h.incomparable r s hr

/-- A listed file is not where the destination is. -/
theorem Apart.entry_off (h : Apart k t src dst d n d' n') {x : Loc} (hx : t.get x ≠ none)
    (hne : x ≠ d' ++ [n']) : ¬ d' ++ [n'] <+: x := by
  rintro ⟨r, rfl⟩
  by_cases hr : r = []
  · rw [hr, List.append_nil] at hne
    exact hne rfl
  · exact hx (h.empty hr)

/-! ## Making the directories -/

/-- The first `m` listed directories are made, and nothing else has happened. -/
structure Laying (t : FileTree Bytes) (d' : Loc) (n' : String) (l : Listing) (m : Nat)
    (u : FileTree Bytes) : Prop where
  begun : m = 0 → u = t
  absent : 0 < m → t.get (d' ++ [n']) = none
  grows : Grows t u
  outside : ∀ x, ¬ d' ++ [n'] <+: x → u.get x = t.get x
  made : ∀ i rel, i < m → l.dirs[i]? = some rel → u.get (d' ++ [n'] ++ rel) = some .dir
  under : ∀ r, u.get (d' ++ [n'] ++ r) = t.get (d' ++ [n'] ++ r) ∨
    (u.get (d' ++ [n'] ++ r) = some .dir ∧ ∃ rel ∈ l.dirs, r <+: rel)

theorem laying_start : Laying t d' n' l 0 t where
  begun _ := rfl
  absent h := absurd h (Nat.lt_irrefl 0)
  grows := Grows.refl t
  outside _ _ := rfl
  made i _ h := absurd h (Nat.not_lt_zero i)
  under _ := .inl rfl

/-- Where a dead link is, no directory can be made. -/
theorem absent_of_made (h : Apart k t src dst d n d' n')
    (hok : (k.create_dir_all t dst).2 = none) : t.get (d' ++ [n']) = none := by
  by_contra hne
  obtain ⟨q, rfl, hq, hd⟩ := Kernel.slot_spec h.dst_slot
  have hmk : k.mkdir t (q.child n') = .error .eexist := by
    simp only [Kernel.mkdir, h.dst_slot]
    rw [dif_neg fun hc => hne hc.2]
  have hnd : k.is_dir t (q.child n') = false := by
    rw [Bool.eq_false_iff]
    intro hdir
    obtain ⟨x, hx, hxd⟩ := Kernel.is_dir_iff.mp hdir
    rw [Kernel.stat_child, hq] at hx
    exact h.dead ⟨x, hx, hxd⟩
  rw [Kernel.create_dir_all_child, hmk] at hok
  simp only [hnd] at hok
  cases hok

theorem Laying.step {m : Nat} {rel : List String} {f : Fault} (ha : Apart k t src dst d n d' n')
    (hl : IsListing k t src l) (h : Laying t d' n' l m u) (hrel : l.dirs[m]? = some rel)
    (hok : (create_dir_all k u (dst.down rel) f).2 = none) :
    Laying t d' n' l (m + 1) (create_dir_all k u (dst.down rel) f).1 := by
  obtain rfl := create_dir_all_ok hok
  have habsent : t.get (d' ++ [n']) = none := by
    by_cases hm : m = 0
    · obtain rfl := h.begun hm
      rw [hm] at hrel
      rw [hl.first_dir hrel, Path.down_nil] at hok
      exact absent_of_made ha hok
    · exact h.absent (Nat.pos_of_ne_zero hm)
  have hnone : ∀ r, t.get (d' ++ [n'] ++ r) = none := fun r =>
    t.get_none_of_prefix (List.prefix_append _ _) habsent
  obtain ⟨q, rfl, hq, hd⟩ := Kernel.slot_spec ha.dst_slot
  have hqu := Kernel.stat_extends h.grows.extends hq
  -- all on the way down from the parent is directories, or not there yet
  have hpass : u.Passable d' (n' :: rel) := by
    intro s hs hsr
    obtain ⟨x, s, rfl⟩ := List.exists_cons_of_ne_nil hs
    obtain ⟨rfl, -⟩ := List.cons_prefix_cons.mp hsr
    rw [← List.singleton_append, ← List.append_assoc]
    rcases h.under s with hu | ⟨hu, -⟩
    · exact .inr (hu.trans (hnone s))
    · exact .inl hu
  obtain ⟨u', hu', hlaid⟩ := Kernel.create_dir_all_below hqu (h.grows.extends _ _ hd) hpass
  have hto : (create_dir_all k u ((q.child n').down rel) .none).1 = u' := by
    rw [Path.child_down]
    exact congrArg Prod.fst hu'
  have hgrows : Grows u u' := by
    rw [← hto]
    exact create_dir_all_grows k u _ _
  have hsplit : ∀ s, d' ++ (n' :: s) = d' ++ [n'] ++ s := fun s => by
    rw [List.append_assoc, List.singleton_append]
  rw [hto]
  refine ⟨fun hm => absurd hm (Nat.succ_ne_zero m), fun _ => habsent, h.grows.trans hgrows, ?_, ?_,
    ?_⟩
  · intro x hx
    rw [hlaid.rest x, h.outside x hx]
    intro s hs hsr heq
    obtain ⟨y, s, rfl⟩ := List.exists_cons_of_ne_nil hs
    obtain ⟨rfl, -⟩ := List.cons_prefix_cons.mp hsr
    rw [hsplit s] at heq
    exact hx (heq ▸ List.prefix_append _ _)
  · intro i rel' hi hrel'
    by_cases him : i = m
    · rw [him, hrel] at hrel'
      cases hrel'
      rw [← hsplit]
      exact hlaid.made _ (List.cons_ne_nil _ _) List.prefix_rfl
    · exact hgrows.extends _ _ (h.made i rel' (by omega) hrel')
  · intro r
    by_cases hr : r <+: rel
    · right
      rw [← hsplit]
      exact ⟨hlaid.made _ (List.cons_ne_nil _ _) (List.cons_prefix_cons.mpr ⟨rfl, hr⟩), rel,
        List.mem_of_getElem? hrel, hr⟩
    · rw [hlaid.rest (d' ++ [n'] ++ r)]
      · exact h.under r
      · intro s hs hsr heq
        obtain ⟨y, s, rfl⟩ := List.exists_cons_of_ne_nil hs
        obtain ⟨rfl, htail⟩ := List.cons_prefix_cons.mp hsr
        rw [hsplit s] at heq
        rw [List.append_cancel_left heq] at hr
        exact hr htail

/-! ## Files going over -/

/-- What is known of the tree once the directories are made: they stay, as do the
directories there were and the links to them, and outside the destination entries
only go. -/
structure Going (k : Kernel) (t : FileTree Bytes) (d' : Loc) (n' : String) (l : Listing)
    (u : FileTree Bytes) : Prop where
  dirs : KeepsDirs k.links t u
  absent : ∀ rel ∈ l.dirs, t.get (d' ++ [n']) = none
  outside : ∀ x, ¬ d' ++ [n'] <+: x → u.get x = t.get x ∨ u.get x = none
  made : ∀ rel ∈ l.dirs, u.get (d' ++ [n'] ++ rel) = some .dir

theorem Laying.going (h : Laying t d' n' l l.dirs.length u) : Going k t d' n' l u where
  dirs x m hx := by
    obtain ⟨e, he⟩ := Option.ne_none_iff_exists'.mp (get_of_leads hx)
    rw [h.grows.extends _ _ he, he]
  absent _ hr := h.absent (List.length_pos_of_mem hr)
  outside x hx := .inl (h.outside x hx)
  made rel hr := by
    obtain ⟨i, hi⟩ := List.mem_iff_getElem?.mp hr
    exact h.made i rel (List.getElem?_eq_some_iff.mp hi).1 hi

/-- A file's target is the place below the destination that its relative path
spells. -/
theorem Going.target (ha : Apart k t src dst d n d' n') (hl : IsListing k t src l)
    (h : Going k t d' n' l u) {f : Path × List String} (hf : f ∈ l.files) :
    ∃ x m, k.slot u (dst.down f.2) = some (x, m) ∧ x ++ [m] = d' ++ [n'] ++ f.2 := by
  have hmem : f.2 ∈ l.files.map Prod.snd ++ l.dirs :=
    List.mem_append_left _ (List.mem_map_of_mem hf)
  rcases List.eq_nil_or_concat f.2 with hnil | ⟨r, m, hr⟩
  · rw [hnil, Path.down_nil, List.append_nil]
    exact ⟨d', n', Kernel.slot_keepsDirs h.dirs ha.dst_slot, rfl⟩
  · rw [List.concat_eq_append] at hr
    rw [hr] at hmem ⊢
    have hdir := h.made r (hl.parent hmem)
    obtain ⟨q, rfl, hq, hd⟩ := Kernel.slot_spec ha.dst_slot
    have htop : u.get (d' ++ [n']) = some .dir := by
      by_cases hr0 : r = []
      · rwa [hr0, List.append_nil] at hdir
      · exact u.get_above hr0 hdir
    have hst := Kernel.stat_child_of_get (Kernel.stat_keepsDirs h.dirs hq hd) htop (by simp)
    exact ⟨_, _, Kernel.slot_below hst hdir, List.append_assoc _ _ _⟩

/-- No listed file is where the destination is. -/
theorem Going.entry_off (ha : Apart k t src dst d n d' n') (hl : IsListing k t src l)
    (h : Going k t d' n' l u) {f : Path × List String} (hf : f ∈ l.files) {x : Loc}
    (hx : k.entry_at t f.1 = some x) (hget : t.get x ≠ none) : ¬ d' ++ [n'] <+: x := by
  apply ha.entry_off hget
  rintro rfl
  rcases List.eq_nil_or_concat f.2 with hnil | ⟨r, m, hr⟩
  · -- the source itself
    rw [(hl.file hf).1, hnil, Path.down_nil, Kernel.entry_at_of_slot ha.src_slot] at hx
    exact ha.other (Option.some.inj hx)
  · rw [List.concat_eq_append] at hr
    have hmem : r ++ [m] ∈ l.files.map Prod.snd ++ l.dirs := by
      rw [← hr]
      exact List.mem_append_left _ (List.mem_map_of_mem hf)
    exact hget (h.absent r (hl.parent hmem))

/-- The rename of a listed file takes its entry to its target. -/
theorem Going.renamed (ha : Apart k t src dst d n d' n') (hl : IsListing k t src l)
    (h : Going k t d' n' l u) {f : Path × List String} (hf : f ∈ l.files)
    (hr : k.rename u f.1 (dst.down f.2) = .ok u') :
    Going k t d' n' l u' ∧ ∃ s e, k.entry_at t f.1 = some s ∧ t.get s = some e ∧
      ∀ x, u'.get x = if x = d' ++ [n'] ++ f.2 then some e else if x = s then none else u.get x := by
  obtain ⟨-, x, m, e, -, hs, -, -, he, hne, hent, hnl⟩ := entry_of_file hl hf
  have hsu := Kernel.slot_keepsDirs h.dirs hs
  obtain ⟨x', m', hs', hx'⟩ := h.target ha hl hf
  have hoff := h.entry_off ha hl hf hent (by simp [he])
  -- what is there to be renamed is what was listed
  have heu : u.get (x ++ [m]) = some e := by
    obtain ⟨y, z, -, -, e', h₁, -, he', -⟩ := Kernel.rename_spec hr
    rw [hsu] at h₁
    cases h₁
    rcases h.outside _ hoff with hsame | hgone
    · rw [hsame, he]
    · rw [hgone] at he'
      cases he'
  have hdiff : x ++ [m] ≠ x' ++ [m'] := by
    intro heq
    rw [heq, hx'] at hoff
    exact hoff (List.prefix_append _ _)
  obtain ⟨hnd, hget⟩ := Kernel.rename_leaf_spec hr hsu hs' heu hne hdiff
  rw [hx'] at hnd
  have hget' : ∀ y, u'.get y = if y = d' ++ [n'] ++ f.2 then some e
      else if y = x ++ [m] then none else u.get y := fun y => by rw [hget, hx']
  refine ⟨⟨?_, h.absent, ?_, ?_⟩, x ++ [m], e, hent, he, hget'⟩
  · intro y z hyz
    rw [hget', if_neg, if_neg, h.dirs y z hyz]
    · intro heq
      obtain ⟨rfl, hz⟩ := List.append_inj' heq rfl
      obtain rfl := List.singleton_inj.mp hz
      exact hnl hyz
    · intro heq
      by_cases hf0 : f.2 = []
      · rw [hf0, List.append_nil] at heq
        obtain ⟨rfl, hz⟩ := List.append_inj' heq rfl
        obtain rfl := List.singleton_inj.mp hz
        exact ha.dead hyz
      · apply get_of_leads hyz
        rw [heq]
        exact ha.empty hf0
  · intro y hy
    have hne : y ≠ d' ++ [n'] ++ f.2 := by
      rintro rfl
      exact hy (List.prefix_append _ _)
    rw [hget', if_neg hne]
    split
    · exact .inr rfl
    · exact h.outside y hy
  · intro rel hrel
    have hdir := h.made rel hrel
    rw [hget', if_neg, if_neg, hdir]
    · intro heq
      exact hoff (heq ▸ List.prefix_append _ _)
    · intro heq
      rw [heq] at hdir
      exact hnd hdir

/-! ## Files going over, where no link leads to a directory -/

/-- A listed file, under its relative path, has not gone over yet. -/
def Unmoved (t : FileTree Bytes) (S : Loc) (u : FileTree Bytes) (f : Path × List String) : Prop :=
  u.get (S ++ f.2) = t.get (S ++ f.2)

/-- It has gone over. -/
def Over (t : FileTree Bytes) (S D : Loc) (u : FileTree Bytes) (f : Path × List String) : Prop :=
  u.get (D ++ f.2) = t.get (S ++ f.2) ∧ u.get (S ++ f.2) = none

/-- What is known of the tree besides: nothing has changed but below the two
places, and what is below the destination was below the source. -/
structure Parting (t : FileTree Bytes) (S D : Loc) (u : FileTree Bytes) : Prop where
  elsewhere : ∀ x, ¬ D <+: x → ¬ S <+: x → u.get x = t.get x
  under : ∀ r, u.get (D ++ r) ≠ none → t.get (S ++ r) ≠ none

theorem Laying.parting (ha : Apart k t src dst d n d' n')
    (hl : IsListing k t src l) (hp : Plain k t (d ++ [n])) {m : Nat} (h : Laying t d' n' l m u) :
    Parting t (d ++ [n]) (d' ++ [n']) u where
  elsewhere x hx _ := h.outside x hx
  under r hr := by
    obtain ⟨e, he⟩ := Option.ne_none_iff_exists'.mp ha.src_there
    obtain ⟨-, hdirs⟩ := hl.plain (Names.of_slot ha.src_slot he hp) hp
    rcases h.under r with hu | ⟨-, rel, hrel, hpre⟩
    · by_cases hr0 : r = []
      · rw [hr0, List.append_nil]
        exact ha.src_there
      · rw [hu, ha.empty hr0] at hr
        exact absurd rfl hr
    · obtain ⟨z, rfl⟩ := hpre
      have hd := hdirs _ hrel
      have hdir : t.get (d ++ [n] ++ r) = some .dir := by
        rw [← List.append_assoc] at hd
        by_cases hz : z = []
        · rwa [hz, List.append_nil] at hd
        · exact t.get_above hz hd
      rw [hdir]
      exact Option.some_ne_none _

theorem Laying.unmoved (ha : Apart k t src dst d n d' n') {m : Nat} (h : Laying t d' n' l m u)
    (f : Path × List String) : Unmoved t (d ++ [n]) u f :=
  h.outside _ fun ⟨r, hr⟩ => ha.incomparable f.2 r hr.symm

/-- A listed file is the entry its relative path spells below the source. -/
theorem plain_entry (ha : Apart k t src dst d n d' n') (hl : IsListing k t src l)
    (hp : Plain k t (d ++ [n])) {f : Path × List String} (hf : f ∈ l.files) :
    k.entry_at t f.1 = some (d ++ [n] ++ f.2) := by
  obtain ⟨e, he⟩ := Option.ne_none_iff_exists'.mp ha.src_there
  have hn := Names.of_slot ha.src_slot he hp
  obtain ⟨e', he', hne, -⟩ := (hl.plain hn hp).1 f hf
  rw [(hl.file hf).1]
  rcases hn.down hp he' with ⟨-, hd⟩ | ⟨x, m, e'', hx, hs, -, -⟩
  · rw [he'] at hd
    exact absurd (Option.some.inj hd) hne
  · rw [hx]
    exact Kernel.entry_at_of_slot hs

/-- What a rename does to the other files, and to the rest of the tree. -/
theorem Parting.renamed (ha : Apart k t src dst d n d' n')
    (h : Parting t (d ++ [n]) (d' ++ [n']) u) {f : Path × List String} {e : Entry Bytes}
    (he : t.get (d ++ [n] ++ f.2) = some e)
    (hget : ∀ x, u'.get x = if x = d' ++ [n'] ++ f.2 then some e
      else if x = d ++ [n] ++ f.2 then none else u.get x) :
    Parting t (d ++ [n]) (d' ++ [n']) u' ∧ Over t (d ++ [n]) (d' ++ [n']) u' f ∧
      ∀ g : Path × List String, g.2 ≠ f.2 →
        (Unmoved t (d ++ [n]) u g → Unmoved t (d ++ [n]) u' g) ∧
        (Over t (d ++ [n]) (d' ++ [n']) u g → Over t (d ++ [n]) (d' ++ [n']) u' g) := by
  -- of the places of another file neither is touched
  have hsrc : ∀ g : Path × List String, g.2 ≠ f.2 →
      u'.get (d ++ [n] ++ g.2) = u.get (d ++ [n] ++ g.2) := by
    intro g hg
    rw [hget, if_neg (ha.incomparable _ _), if_neg fun heq => hg (List.append_cancel_left heq)]
  have hdst : ∀ g : Path × List String, g.2 ≠ f.2 →
      u'.get (d' ++ [n'] ++ g.2) = u.get (d' ++ [n'] ++ g.2) := by
    intro g hg
    rw [hget, if_neg fun heq => hg (List.append_cancel_left heq),
      if_neg fun heq => ha.incomparable _ _ heq.symm]
  refine ⟨⟨?_, ?_⟩, ⟨?_, ?_⟩, ?_⟩
  · intro x hx hxs
    have hne : x ≠ d' ++ [n'] ++ f.2 := by
      rintro rfl
      exact hx (List.prefix_append _ _)
    have hnes : x ≠ d ++ [n] ++ f.2 := by
      rintro rfl
      exact hxs (List.prefix_append _ _)
    rw [hget, if_neg hne, if_neg hnes]
    exact h.elsewhere x hx hxs
  · intro r hr
    by_cases hrf : r = f.2
    · rw [hrf, he]
      simp
    · rw [hdst (f.1, r) hrf] at hr
      exact h.under r hr
  · rw [hget, if_pos rfl, he]
  · rw [hget, if_neg (ha.incomparable _ _), if_pos rfl]
  · intro g hg
    refine ⟨fun hu => (hsrc g hg).trans hu, fun ho => ?_⟩
    exact ⟨(hdst g hg).trans ho.1, (hsrc g hg).trans ho.2⟩

/-! ## The workers -/

/-- What a worker is at as long as every rename succeeds. -/
def Worker.Smooth : Worker → Prop
  | .idle => True
  | .measure _ => True
  | .announce _ => True
  | .rename _ => True
  | .report _ true => True
  | .stopped => True
  | _ => False

/-- Where the file is that such a worker has. -/
def Worker.Bears (t : FileTree Bytes) (S D : Loc) (u : FileTree Bytes) (f : Path × List String) :
    Worker → Prop
  | .report _ true => Over t S D u f
  | _ => Unmoved t S u f

/-- The terms of the workers of a move that goes smoothly. -/
def smooth_terms (t : FileTree Bytes) (S D : Loc) (u : FileTree Bytes) :
    Pool.Terms Worker (Path × List String) where
  waiting f := Unmoved t S u f
  held w f := w.Bears t S D u f
  settled f := Over t S D u f
  always _ := True

/-- What is known besides while the workers are at it. -/
def Orderly (t : FileTree Bytes) (S D : Loc) (l : Listing) (u : FileTree Bytes) (ws : List Worker)
    (next : Nat) : Prop :=
  Parting t S D u ∧ Pool.Books Worker.idx .stopped (smooth_terms t S D u) l.files ws next 0

/-- A call of a worker, when it does what it is asked. -/
theorem work_by_files {ws : List Worker} {next i : Nat} {w : Worker} {r : Runner} {f : Fault}
    {y : FileTree Bytes × Job × Nat × Nat × Worker} (ha : Apart k t src dst d n d' n')
    (hl : IsListing k t src l) (hfirst : r.op = .move ∧ r.same_drive = true) (hdst : r.dst = dst)
    (hG : Going k t d' n' l u) (hw : ws[i]? = some w) (hsm : w.Smooth)
    (hok : ∀ task sf rel, w = .rename task → l.files[task.idx]? = some (sf, rel) →
      ∃ t', rename k u sf (dst.down rel)
        (f.rename_at k u sf .none (dst.down rel) (r.target_tail rel)) = .ok t')
    (hy : Runner.WorkCase k u r l next 0 f w y) :
    y.2.2.2.1 = 0 ∧ y.2.2.2.2.Smooth ∧ Going k t d' n' l y.1 ∧
      (Plain k t (d ++ [n]) → Orderly t (d ++ [n]) (d' ++ [n']) l u ws next →
        Orderly t (d ++ [n]) (d' ++ [n']) l y.1 (ws.set i y.2.2.2.2) y.2.2.1) := by
  subst hdst
  cases hy with
  | drained hnone =>
      exact ⟨rfl, trivial, hG, fun _ h => ⟨h.1, h.2.drained hw rfl rfl hnone⟩⟩
  | taken g hf =>
      exact ⟨rfl, trivial, hG, fun _ h => ⟨h.1, h.2.taken hw rfl hf rfl rfl id⟩⟩
  | measured idx sf rel hf =>
      refine ⟨rfl, trivial, hG, fun _ h => ⟨h.1, ?_⟩⟩
      obtain ⟨-, g, hg, hheld⟩ := h.2.held i _ _ hw rfl
      exact h.2.hold hw rfl hg rfl rfl (Nat.le_refl 0) hheld trivial
        fun _ g _ _ => Pool.Terms.Keeps.refl _ g
  | announced task sf rel hf =>
      have hto : r.first task = .rename task := if_pos hfirst
      simp only [hto]
      refine ⟨trivial, trivial, hG, fun _ h => ⟨h.1, ?_⟩⟩
      obtain ⟨-, g, hg, hheld⟩ := h.2.held i _ _ hw rfl
      exact h.2.hold hw rfl hg rfl rfl (Nat.le_refl 0) hheld trivial
        fun _ g _ _ => Pool.Terms.Keeps.refl _ g
  | renamed task sf rel u' hf hr =>
      obtain ⟨hG', s, e, hs, he, hget⟩ := hG.renamed ha hl (List.mem_of_getElem? hf) hr
      refine ⟨rfl, trivial, hG', fun hp h => ?_⟩
      rw [plain_entry ha hl hp (List.mem_of_getElem? hf)] at hs
      obtain rfl := Option.some.inj hs
      obtain ⟨hP, hover, hothers⟩ := h.1.renamed (f := (sf, rel)) ha he hget
      refine ⟨hP, h.2.hold hw rfl hf rfl rfl (Nat.le_refl 0) hover trivial ?_⟩
      intro m g hm hg
      -- another number is another relative path
      have hne : g.2 ≠ rel := by
        intro heq
        apply hm
        have hmap : (l.files.map Prod.snd)[m]? = (l.files.map Prod.snd)[task.idx]? := by
          rw [List.getElem?_map, List.getElem?_map, hg, hf, Option.map_some, Option.map_some, heq]
        have hlt : m < (l.files.map Prod.snd).length := by
          rw [List.length_map]
          exact (List.getElem?_eq_some_iff.mp hg).1
        exact (List.getElem?_inj hlt hl.nodup).mp hmap
      obtain ⟨hun, hov⟩ := hothers g hne
      refine ⟨hun, fun v hv => ?_, hov, fun _ => trivial⟩
      cases v with
      | report x ok =>
          cases ok with
          | true => exact hov hv
          | false => exact hun hv
      | _ => exact hun hv
  | unrenamed task sf rel e hf hr =>
      obtain ⟨t', ht'⟩ := hok task sf rel rfl hf
      rw [ht'] at hr
      cases hr
  | reported task ok =>
      cases ok with
      | true =>
          refine ⟨rfl, trivial, hG, fun _ h => ⟨h.1, ?_⟩⟩
          exact h.2.reported hw rfl rfl (by simp) (Nat.le_refl 0) fun f _ hh => .inr hh
      | false => exact hsm.elim
  | copied task sf rel u' m hf hcp => exact hsm.elim
  | uncopied task sf rel u' e hf hcp => exact hsm.elim
  | removed task sf rel u' hf hr => exact hsm.elim
  | unremoved task sf rel e hf hr => exact hsm.elim
  | failed task err => exact hsm.elim
  | noted task err e => exact hsm.elim

/-! ## Removing what is left -/

/-- What `remove_dir_all` leaves of the source of a smooth move. -/
theorem removed_get (ha : Apart k t src dst d n d' n') (hl : IsListing k t src l)
    (hp : Plain k t (d ++ [n])) (hG : Going k t d' n' l u)
    (hall : ∀ f ∈ l.files, Over t (d ++ [n]) (d' ++ [n']) u f) (x : Loc) :
    (remove_dir_all k u src .none).1.get x = if d ++ [n] <+: x then none else u.get x := by
  have hs := Kernel.slot_keepsDirs hG.dirs ha.src_slot
  obtain ⟨e, he⟩ := Option.ne_none_iff_exists'.mp ha.src_there
  obtain ⟨-, hdirs⟩ := hl.plain (Names.of_slot ha.src_slot he hp) hp
  show (k.remove_dir_all u src).1.get x = _
  rcases hl.root with hf | hd
  · -- a source that was one entry is gone already
    have hgone := (hall _ hf).2
    rw [List.append_nil] at hgone
    simp only [Kernel.remove_dir_all, hs, hgone]
    by_cases hx : d ++ [n] <+: x
    · rw [if_pos hx, u.get_none_of_prefix hx hgone]
    · rw [if_neg hx]
  · have hdir := hdirs [] hd
    rw [List.append_nil] at hdir
    simp only [Kernel.remove_dir_all, hs, hG.dirs.get_dir hdir, FileTree.get_erase]

/-- **The trees agree** when no link leads to a directory. -/
theorem agree_after {w : FileTree Bytes} (ha : Apart k t src dst d n d' n')
    (hl : IsListing k t src l) (hp : Plain k t (d ++ [n])) (hG : Going k t d' n' l u)
    (hP : Parting t (d ++ [n]) (d' ++ [n']) u)
    (hall : ∀ f ∈ l.files, Over t (d ++ [n]) (d' ++ [n']) u f)
    (hw : ∀ x, w.get x = if d' ++ [n'] <+: x then t.get (d ++ [n] ++ x.drop (d' ++ [n']).length)
      else if d ++ [n] <+: x then none else t.get x) (x : Loc) :
    (remove_dir_all k u src .none).1.get x = w.get x := by
  rw [removed_get ha hl hp hG hall, hw]
  by_cases hx : d' ++ [n'] <+: x
  · obtain ⟨r, rfl⟩ := hx
    rw [if_neg (ha.not_below r), if_pos (List.prefix_append _ _), List.drop_left]
    -- below the destination: what was not there, a directory, an entry that went over
    obtain ⟨e, he⟩ := Option.ne_none_iff_exists'.mp ha.src_there
    obtain ⟨fuel, vs, hwalk, rfl⟩ := hl.walk
    obtain ⟨us, hus, hlists⟩ := walk_spec (Names.of_slot ha.src_slot he hp) hp hwalk
    cases hus
    cases hr : t.get (d ++ [n] ++ r) with
    | none =>
        by_contra hne
        exact hP.under r hne hr
    | some e' =>
        obtain ⟨v, hv, hrel⟩ := hlists.complete r e' hr
        obtain ⟨s, e'', hpath, hrel', he'', hleaf⟩ := hlists.sound v hv
        have hsr : s = r := by
          rw [hrel] at hrel'
          exact (List.append_cancel_left hrel').symm
        subst hsr
        rw [hr] at he''
        obtain rfl := Option.some.inj he''
        obtain ⟨p, r', o⟩ := v
        have hr' : r' = s := by simpa using hrel
        subst hr'
        have hleaf' : o = leafOf e' := hleaf
        cases e' with
        | dir =>
            subst hleaf'
            exact hG.made _ (mem_dirs.mpr ⟨p, hv⟩)
        | file bs =>
            subst hleaf'
            exact (hall _ (mem_files.mpr ⟨_, hv⟩)).1.trans hr
        | symlink tgt =>
            subst hleaf'
            exact (hall _ (mem_files.mpr ⟨_, hv⟩)).1.trans hr
  · rw [if_neg hx]
    by_cases hxs : d ++ [n] <+: x
    · rw [if_pos hxs, if_pos hxs]
    · rw [if_neg hxs, if_neg hxs]
      exact hP.elsewhere x hx hxs

/-- A link to a directory is listed as a directory. -/
theorem link_listed (ha : Apart k t src dst d n d' n') (hl : IsListing k t src l)
    (hp : ¬ Plain k t (d ++ [n])) :
    ∃ r ∈ l.dirs, ∃ tgt, t.get (d ++ [n] ++ r) = some (.symlink tgt) := by
  simp only [Plain, not_forall, not_not] at hp
  obtain ⟨x, m, tgt, ⟨r, hr⟩, hlink, hleads⟩ := hp
  refine ⟨r, ?_, tgt, by rw [hr, hlink]⟩
  rcases List.eq_nil_or_concat r with rfl | ⟨s, m', rfl⟩
  · -- the source is the link
    rw [List.append_nil] at hr
    obtain ⟨rfl, hm⟩ := List.append_inj' hr rfl
    obtain rfl := List.singleton_inj.mp hm
    rcases hl.root with hf | hd
    · have hnd := (hl.file hf).2.1
      rw [Kernel.is_dir_of_leads ha.src_slot hleads] at hnd
      cases hnd
    · exact hd
  · rw [List.concat_eq_append] at hr ⊢
    rw [← List.append_assoc] at hr
    obtain ⟨rfl, hm⟩ := List.append_inj' hr rfl
    obtain rfl := List.singleton_inj.mp hm
    -- above it there are only directories, down from the source
    have hdir : t.get (d ++ [n] ++ s) = some .dir := t.get_parent hlink
    have htop : t.get (d ++ [n]) = some .dir := by
      by_cases hs : s = []
      · rwa [hs, List.append_nil] at hdir
      · exact t.get_above hs hdir
    obtain ⟨q, hq, hqd, -⟩ := Kernel.slot_spec ha.src_slot
    have hst : k.stat t src = some (d ++ [n]) := by
      rw [hq]
      exact Kernel.stat_child_of_get hqd htop (by simp)
    have hslot : k.slot t (src.down (s ++ [m'])) = some (d ++ [n] ++ s, m') :=
      Kernel.slot_below hst hdir
    obtain ⟨fuel, vs, hw, rfl⟩ := hl.walk
    rw [List.append_assoc] at hlink
    obtain ⟨⟨p, r, o⟩, hv, hpath, hrel⟩ := walk_complete hw hst hlink
    have hrel' : r = s ++ [m'] := by simpa using hrel
    have hpath' : p = src.down (s ++ [m']) := hpath
    subst hrel' hpath'
    cases o with
    | none => exact mem_dirs.mpr ⟨_, hv⟩
    | some e =>
        obtain ⟨-, -, -, hleaf, -⟩ := walk_sound hw hv
        have hnd := (hleaf e rfl).2
        rw [Kernel.is_dir_of_leads hslot hleads] at hnd
        cases hnd

/-! ## The run of a move, file by file -/

/-- The result, against the tree `w` that the one rename leaves. -/
def Settled (k : Kernel) (t : FileTree Bytes) (src : Path) (S D : Loc) (w u : FileTree Bytes) :
    Prop :=
  ∃ l, IsListing k t src l ∧ (∀ rel ∈ l.dirs, u.get (D ++ rel) = some .dir) ∧
    (Plain k t S → ∀ x, u.get x = w.get x)

/-- What holds in each phase. -/
def AtSlow (k : Kernel) (t : FileTree Bytes) (src : Path) (d : Loc) (n : String) (d' : Loc)
    (n' : String) (w u : FileTree Bytes) : Phase → Prop
  | .queued => u = t
  | .walking => u = t
  | .checking l => u = t ∧ IsListing k t src l
  | .renaming l => u = t ∧ IsListing k t src l
  | .making l m => IsListing k t src l ∧ m ≤ l.dirs.length ∧ Laying t d' n' l m u
  | .working l ws next failed => IsListing k t src l ∧ failed = 0 ∧ (∀ v ∈ ws, v.Smooth) ∧
      Going k t d' n' l u ∧
      (Plain k t (d ++ [n]) → Orderly t (d ++ [n]) (d' ++ [n']) l u ws next)
  | .cleaning l failed => IsListing k t src l ∧ failed = 0 ∧ Going k t d' n' l u ∧
      (Plain k t (d ++ [n]) → Parting t (d ++ [n]) (d' ++ [n']) u ∧
        ∀ f ∈ l.files, Over t (d ++ [n]) (d' ++ [n']) u f)
  | .ending => Settled k t src (d ++ [n]) (d' ++ [n']) w u
  | .finished => Settled k t src (d ++ [n]) (d' ++ [n']) w u

/-- The invariant of a move that goes file by file. -/
structure SlowInv (k : Kernel) (t : FileTree Bytes) (src dst : Path) (d : Loc) (n : String)
    (d' : Loc) (n' : String) (w : FileTree Bytes) (s : FileTree Bytes × Runner) : Prop where
  src_eq : s.2.src = src
  dst_eq : s.2.dst = dst
  tail : s.2.src_tail = .none ∨ s.2.src_tail = .slash ∧ k.lstat t src = some .dir
  first : s.2.op = .move ∧ s.2.same_drive = true
  crew : 0 < s.2.nthreads
  phase : AtSlow k t src d n d' n' w s.1 s.2.phase

theorem slow_step {w : FileTree Bytes} (ha : Apart k t src dst d n d' n')
    (hw : ∀ x, w.get x = if d' ++ [n'] <+: x then t.get (d ++ [n] ++ x.drop (d' ++ [n']).length)
      else if d ++ [n] <+: x then none else t.get x)
    {s s' : FileTree Bytes × Runner} {e : Event} (h : SlowInv k t src dst d n d' n' w s)
    (he : ByFiles k s e) (hs : alone k s e = some s') : SlowInv k t src dst d n d' n' w s' := by
  obtain ⟨u, r⟩ := s
  obtain ⟨hsrc, hdst, htail, hfirst, hcrew, hat⟩ := h
  -- whatever the step is, the job's own data stay
  have hinv : ∀ (u' : FileTree Bytes) (p : Phase) (job : Job), AtSlow k t src d n d' n' w u' p →
      SlowInv k t src dst d n d' n' w (u', { r with phase := p, job := job }) :=
    fun u' p job hp => ⟨hsrc, hdst, htail, hfirst, hcrew, hp⟩
  dsimp only at hsrc hdst htail hfirst hcrew hat
  cases Runner.step_cases hs with
  | started f hp =>
      rw [hp] at hat
      exact hinv _ _ _ hat
  | unwalked ev e' hp =>
      -- the walk meets no error
      exfalso
      replace hp : r.phase = .walking := hp
      cases e with
      | walk fuel =>
          have hwalk : ∃ l, walk_from k u r.src r.src_tail (walk_files k u fuel r.src)
              = some (.ok l) := by
            simpa only [ByFiles, hp] using he
          obtain ⟨l, hl⟩ := hwalk
          simp only [alone, Runner.step, hp, hl, Option.some.injEq, Prod.mk.injEq] at hs
          have hphase := congrArg Runner.phase hs.2
          cases hphase
      | main f => simp only [ByFiles, hp] at he
      | worker i f => simp only [alone, Runner.step, hp, reduceCtorEq] at hs
  | walked fuel l hp hwalk =>
      rw [hp] at hat
      obtain rfl : u = t := hat
      exact hinv _ _ _ ⟨rfl, fuel, hsrc ▸ hwalk⟩
  | checked_fast f l hp hop hsd hx =>
      rw [hp] at hat
      exact hinv _ _ r.job hat
  | checked_slow f l hp =>
      rw [hp] at hat
      obtain ⟨rfl, hl⟩ := hat
      exact hinv _ _ r.job ⟨hl, Nat.zero_le _, laying_start⟩
  | renamed_tree f l u' hp hr hb hok =>
      -- the rename of the whole is skipped
      exfalso
      replace hp : r.phase = .renaming l := hp
      have hf : f.errno ≠ none := by simpa only [ByFiles, hp] using he
      exact hf (errno_of_rename_at hok)
  | unrenamed_tree f l hp =>
      rw [hp] at hat
      obtain ⟨rfl, hl⟩ := hat
      exact hinv _ _ r.job ⟨hl, Nat.zero_le _, laying_start⟩
  | made f l m rel hp hm =>
      rw [hp] at hat
      obtain ⟨hl, -, hL⟩ := hat
      replace hp : r.phase = .making l m := hp
      have hok : (create_dir_all k u (r.dst.down rel)
          (f.create_dir_all_at k u (r.dst.down rel) (r.target_tail rel))).2 = none := by
        simp only [ByFiles, hp] at he
        exact he rel hm
      rw [hdst] at hok
      have hL' := hL.step ha hl hm hok
      rw [← hdst] at hL'
      exact hinv _ _ _ ⟨hl, (List.getElem?_eq_some_iff.mp hm).1, hL'⟩
  | spawned f l m hp hm =>
      rw [hp] at hat
      obtain ⟨hl, hle, hL⟩ := hat
      have hlen : m = l.dirs.length :=
        Nat.le_antisymm hle (List.getElem?_eq_none_iff.mp hm)
      subst hlen
      refine hinv _ _ r.job ⟨hl, rfl, fun v hv => ?_, hL.going, fun hp => ⟨hL.parting ha hl hp, ?_⟩⟩
      · rw [List.eq_of_mem_replicate hv]
        trivial
      · exact Pool.Books.start hcrew rfl (by simp) (fun f _ => hL.unmoved ha f) fun _ _ => trivial
  | worked i f l ws next failed worker y hp hwk hy =>
      rw [hp] at hat
      obtain ⟨hl, rfl, hsm, hG, hO⟩ := hat
      replace hp : r.phase = .working l ws next 0 := hp
      have hok : ∀ task sf rel, worker = .rename task → l.files[task.idx]? = some (sf, rel) →
          ∃ t', rename k u sf (dst.down rel)
            (f.rename_at k u sf .none (dst.down rel) (r.target_tail rel)) = .ok t' := by
        intro task sf rel htask hf
        simp only [ByFiles, hp, hdst] at he
        exact he task sf rel (htask ▸ hwk) hf
      obtain ⟨hfail, hsm', hG', hO'⟩ := work_by_files ha hl hfirst hdst hG hwk
        (hsm _ (List.mem_of_getElem? hwk)) hok hy
      refine hinv _ _ _ ⟨hl, hfail, fun v hv => ?_, hG', fun hp => hO' hp (hO hp)⟩
      rcases List.mem_or_eq_of_mem_set hv with hv | rfl
      · exact hsm v hv
      · exact hsm'
  | joined f l ws next failed hp hws =>
      rw [hp] at hat
      obtain ⟨hl, rfl, -, hG, hO⟩ := hat
      refine hinv _ _ r.job ⟨hl, rfl, hG, fun hp => ⟨(hO hp).1, fun g hg => ?_⟩⟩
      exact (hO hp).2.over rfl hws hg
  | cleaned f l hp hop =>
      rw [hp] at hat
      obtain ⟨hl, -, hG, hP⟩ := hat
      replace hp : r.phase = .cleaning l 0 := hp
      obtain rfl : f = .none := by simpa only [ByFiles, hp] using he
      refine hinv _ _ r.job ?_
      rw [hsrc]
      -- the source is removed as it would be without a separator
      have hrem : remove_dir_all_at k u src r.src_tail .none = remove_dir_all k u src .none := by
        rcases htail with hb | ⟨hb, hdir⟩
        · rw [hb, remove_dir_all_at_none]
        · refine if_pos (.inr ⟨hb, ?_⟩)
          rw [Kernel.lstat_eq, Kernel.entry_at_of_slot ha.src_slot, Option.bind_some] at hdir
          rw [Kernel.lstat_eq, Kernel.entry_at_of_slot (Kernel.slot_keepsDirs hG.dirs ha.src_slot),
            Option.bind_some, hG.dirs.get_dir hdir]
      dsimp only
      rw [hrem]
      refine ⟨l, hl, fun rel hrel => ?_, fun hp x => ?_⟩
      · rcases remove_dir_all_get k u src .none (d' ++ [n'] ++ rel) with hsame | ⟨-, y, hy, hyx⟩
        · rw [hsame]
          exact hG.made rel hrel
        · rw [Kernel.entry_at_of_slot (Kernel.slot_keepsDirs hG.dirs ha.src_slot)] at hy
          obtain rfl := Option.some.inj hy
          exact absurd hyx (ha.not_below rel)
      · obtain ⟨hP, hall⟩ := hP hp
        exact agree_after ha hl hp hG hP hall hw x
  | kept f l failed hp hnc =>
      rw [hp] at hat
      obtain ⟨-, rfl, -⟩ := hat
      exact absurd ⟨hfirst.1, rfl⟩ hnc
  | ended f hp =>
      rw [hp] at hat
      exact hinv _ _ _ hat

end

/-! ## The two ways agree -/

/-- **The two ways of a move agree** exactly where no link at or below the source
leads to a directory. `w` is what the rename of the whole leaves; in the run that
rename is skipped and every other call does what it is asked, in any order of the
workers. -/
theorem ways_agree_iff (k : Kernel) (h : Host) (t w : FileTree Bytes) (src final_dst : PathBuf)
    (hsrc : k.exists_ t src.full = true) (hdst : k.exists_ t final_dst.full = false)
    (hsame : (spawn h .move src final_dst).same_drive = true)
    (hw : rename k t src.path final_dst.path
      (Fault.none.rename_at k t src.path src.tail final_dst.path final_dst.tail) = .ok w)
    (s : FileTree Bytes × Runner)
    (hrun : Reach (alone k) (ByFiles k) (t, spawn h .move src final_dst) s)
    (hend : s.2.phase = .finished) :
    (∀ x, s.1.get x = w.get x) ↔ ∀ S, k.entry_at t src.path = some S → Plain k t S := by
  obtain ⟨d, n, d', n', ha, hget⟩ := apart_of_rename (Kernel.exists_of_tailed hsrc)
    (not_exists_of_rename_at hdst hw) (rename_ok hw)
  have htail : src.tail = .none ∨ src.tail = .slash ∧ k.lstat t src.path = some .dir := by
    rcases rename_at_ok hw with ⟨hb, -⟩ | ⟨hb, -, hdir⟩
    · exact .inl hb
    · cases hs : src.tail with
      | none => exact .inl rfl
      | slash => exact .inr ⟨rfl, hdir⟩
      | dot => exact absurd hs hb
  have hinv : SlowInv k t src.path final_dst.path d n d' n' w s :=
    hrun.inv ⟨rfl, rfl, htail, ⟨rfl, hsame⟩, h.nthreads_pos,
      show AtSlow k t _ _ _ _ _ _ t .queued from rfl⟩
      fun s e s' hs he hstep => slow_step ha hget hs he hstep
  have hat := hinv.phase
  rw [hend] at hat
  obtain ⟨l, hl, hdirs, hagree⟩ := hat
  have hent := Kernel.entry_at_of_slot ha.src_slot
  constructor
  · intro hall S hS
    rw [hent] at hS
    obtain rfl := Option.some.inj hS
    by_contra hp
    -- a directory where the rename has put the link
    obtain ⟨r, hr, tgt, htgt⟩ := link_listed ha hl hp
    have hdir := hdirs r hr
    rw [hall, hget, if_pos (List.prefix_append _ _), List.drop_left, htgt] at hdir
    cases hdir
  · intro hp
    exact hagree (hp _ hent)

/-- `ByFiles`, as a test. -/
def by_files (k : Kernel) (s : FileTree Bytes × Runner) (e : Event) : Bool :=
  match s.2.phase, e with
  | .walking, .walk fuel =>
    match walk_from k s.1 s.2.src s.2.src_tail (walk_files k s.1 fuel s.2.src) with
    | some (.ok _) => true
    | _ => false
  | .walking, .main _ => false
  | .renaming _, .main f => f.errno.isSome
  | .making l n, .main f =>
    match l.dirs[n]? with
    | some rel => (create_dir_all k s.1 (s.2.dst.down rel)
        (f.create_dir_all_at k s.1 (s.2.dst.down rel) (s.2.target_tail rel))).2.isNone
    | none => true
  | .working l ws _ _, .worker i f =>
    match ws[i]? with
    | some (.rename task) =>
      match l.files[task.idx]? with
      | some (sf, rel) =>
        match rename k s.1 sf (s.2.dst.down rel)
            (f.rename_at k s.1 sf .none (s.2.dst.down rel) (s.2.target_tail rel)) with
        | .ok _ => true
        | .error _ => false
      | none => true
    | _ => true
  | .cleaning _ _, .main f => decide (f = .none)
  | _, _ => true

theorem by_files_spec {k : Kernel} {s : FileTree Bytes × Runner} {e : Event}
    (h : by_files k s e = true) : ByFiles k s e := by
  unfold ByFiles
  unfold by_files at h
  split <;> rename_i hp
  · simp only [hp] at h
    split at h
    · rename_i l hl
      exact ⟨l, hl⟩
    · cases h
  · simp only [hp] at h
    cases h
  · simp only [hp, Option.isSome_iff_ne_none] at h
    exact h
  · intro rel hrel
    simpa only [hp, hrel, Option.isNone_iff_eq_none] using h
  · intro task sf rel hw hf
    simp only [hp, hw, hf] at h
    split at h
    · rename_i t' ht'
      exact ⟨t', ht'⟩
    · cases h
  · simpa only [hp, decide_eq_true_eq] using h
  · trivial

/-- The directory with a file and an empty directory in it, file by file. -/
theorem ways_agree_tree : ∃ (s : FileTree Bytes × Runner) (w : FileTree Bytes),
    s.2.phase = .finished ∧ box.rename tree_a (.abs ["a"]) (.abs ["b"]) = .ok w ∧
      ∀ x, s.1.get x = w.get x := by
  have hrun : (exec_if (alone box) (by_files box)
      (tree_a, spawn box_host .move (.abs ["a"]) (.abs ["b"]))
      [.main .none, .walk 3, .main .none, .main (.error .exdev), .main .none, .main .none,
        .main .none, .worker 0 .none, .worker 0 .none, .worker 0 .none, .worker 0 .none,
        .worker 0 .none, .worker 0 .none, .main .none, .main .none,
        .main .none]).map (fun s => s.2.phase) = some .finished := by
    decide
  obtain ⟨s, hs, hend⟩ := Option.map_eq_some_iff.mp hrun
  refine ⟨s, _, hend, rfl, ?_⟩
  exact (ways_agree_iff box box_host tree_a _ (.abs ["a"]) (.abs ["b"]) (by decide) (by decide)
    (by decide) rfl s (reach_of_exec_if (fun _ _ h => by_files_spec h) hs) hend).mpr
    fun S _ => plain_of_no_links (by decide) S

/-- A directory with a link to another directory in it. -/
def tree_l : FileTree Bytes :=
  ((FileTree.empty.with_ [] "c" .dir).with_ [] "a" .dir).with_ ["a"] "l" (.symlink (.abs ["c"]))

/-- Moved file by file, the link has become a directory. -/
theorem link_becomes_directory : ¬ ∀ (k : Kernel) (h : Host) (t w : FileTree Bytes)
    (src final_dst : PathBuf), k.exists_ t src.full = true → k.exists_ t final_dst.full = false →
    (spawn h .move src final_dst).same_drive = true →
    rename k t src.path final_dst.path
      (Fault.none.rename_at k t src.path src.tail final_dst.path final_dst.tail) = .ok w →
    ∀ s, Reach (alone k) (ByFiles k) (t, spawn h .move src final_dst) s → s.2.phase = .finished →
      ∀ x, s.1.get x = w.get x := by
  intro hall
  have hrun : (exec_if (alone box) (by_files box)
      (tree_l, spawn box_host .move (.abs ["a"]) (.abs ["b"]))
      [.main .none, .walk 3, .main .none, .main (.error .exdev), .main .none, .main .none,
        .main .none, .worker 0 .none, .main .none, .main .none,
        .main .none]).map (fun s => (s.2.phase, s.1.linkAt ["b", "l"])) = some (.finished, none) := by
    decide
  obtain ⟨s, hs, hout⟩ := Option.map_eq_some_iff.mp hrun
  simp only [Prod.mk.injEq] at hout
  have hsame := hall box box_host tree_l _ (.abs ["a"]) (.abs ["b"]) (by decide) (by decide)
    (by decide) rfl s (reach_of_exec_if (fun _ _ h => by_files_spec h) hs) hout.1 ["b", "l"]
  rw [FileTree.linkAt_of_get_eq hsame] at hout
  exact absurd hout.2 (by decide)

end WebDavs.Mover
