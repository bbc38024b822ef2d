/-
A job whose destination is new.

Where the name that `free_dst` returns is free, what is missing on the way to it
begins somewhere: a name in a directory that is there, and behind it names alone.
Nothing is below that name, so that the job finds only what it has made itself on
the way to its targets, and whatever it writes is new (`Ahead`). Or nothing can be
made on the way, as a file or a link that leads nowhere is in it; then the job
writes nothing at all.

A `..` behind the missing name is another matter: once the job has made the name,
the `..` leads back out, to what may be there already.
-/
import WebDavs.Posix.Below
import WebDavs.Posix.Making
import WebDavs.FreeDst
import WebDavs.Conduct

set_option autoImplicit false

namespace WebDavs.Mover

open WebDavs.Posix WebDavs.Posix.FileTree WebDavs.Steps

/-- Nothing has been overwritten or merged into: every entry is as it was, or went
with a move, or is new where nothing was, at or below the place `dst` names or a
directory on the way to it. -/
def Spared (k : Kernel) (t : FileTree Bytes) (op : Op) (dst : Path) (u : FileTree Bytes) : Prop :=
  ∀ x, u.get x = t.get x ∨ (op = .move ∧ u.get x = none) ∨
    (t.get x = none ∧ ∃ l, k.locate t dst = some l ∧ t.get l = none ∧
      (l <+: x ∨ (x <+: l ∧ u.get x = some .dir)))

/-- Behind a missing name of `p` there are only names. -/
def Onward (k : Kernel) (t : FileTree Bytes) (p : Path) : Prop :=
  ∀ i d n, k.slot t (p.upto i) = some (d, n) → t.get (d ++ [n]) = none →
    ∃ r, p = (p.upto i).down r

/-- `dst` is the names `w` below a directory, and the first of them is missing. -/
structure Gap (k : Kernel) (t : FileTree Bytes) (dst q : Path) (B : Loc) (w : List String) :
    Prop where
  path : dst = q.down w
  base : k.stat t q = some B
  dir : t.get B = some .dir
  free : ∃ m r, w = m :: r ∧ t.get (B ++ [m]) = none

section

variable {k : Kernel} {t u : FileTree Bytes} {op : Op} {src dst q : Path} {B : Loc}
variable {w : List String} {l : Listing}

theorem upto_length (p : Path) : p.upto p.comps.length = p := by
  rw [Path.upto, List.take_length]

/-- What a free path lacks is a gap, unless it can never be made. -/
theorem gap_of_lacks (ho : Onward k t dst) (hl : k.Lacks t dst) : ∃ q B w, Gap k t dst q B w := by
  obtain ⟨j, -, d, n, hs, hn⟩ := hl
  obtain ⟨r, hr⟩ := ho j d n hs hn
  obtain ⟨q, hq, hst, hd⟩ := Kernel.slot_spec hs
  rw [hq, Path.child_down] at hr
  exact ⟨q, d, n :: r, hr, hst, hd, n, r, rfl, hn⟩

/-! ## A way on which nothing can be made -/

section Blocked

variable (hfree : k.lstat t dst = none) (hl : ¬ k.Lacks t dst)

include hfree hl

theorem blocked_slot (rel : List String) : k.slot t (dst.down rel) = none := by
  rcases List.eq_nil_or_concat rel with rfl | ⟨r, n, rfl⟩
  · rw [Path.down_nil]
    by_contra hne
    obtain ⟨⟨d, n⟩, hs⟩ := Option.ne_none_iff_exists'.mp hne
    refine hl ⟨dst.comps.length, Nat.le_refl _, d, n, by rw [upto_length]; exact hs, ?_⟩
    rwa [Kernel.lstat_eq, Kernel.entry_at_of_slot hs, Option.bind_some] at hfree
  · rw [List.concat_eq_append, ← Path.down_child, Kernel.slot_child, Kernel.stat_down,
      Kernel.stat_of_lstat_none hfree]
    rfl

theorem blocked_lacks (rel : List String) : ¬ k.Lacks t (dst.down rel) := by
  rintro ⟨j, -, d, n, hs, hn⟩
  rcases Path.upto_down dst rel j with hup | ⟨i, hup⟩
  · rw [hup] at hs
    by_cases hj : j ≤ dst.comps.length
    · exact hl ⟨j, hj, d, n, hs, hn⟩
    · refine hl ⟨dst.comps.length, Nat.le_refl _, d, n, ?_, hn⟩
      rw [upto_length]
      rwa [Path.upto, List.take_of_length_le (by omega)] at hs
  · rw [hup, blocked_slot hfree hl] at hs
    cases hs

end Blocked

theorem lacks_of_upto {p : Path} {n : Nat} (h : k.Lacks t (p.upto n)) : k.Lacks t p := by
  obtain ⟨j, hj, d, m, hs, hm⟩ := h
  have hlen : (p.upto n).comps.length = min n p.comps.length := by simp [Path.upto]
  rw [hlen] at hj
  rw [Kernel.upto_upto (by omega)] at hs
  exact ⟨j, by omega, d, m, hs, hm⟩

/-- With nothing to make on the way, `create_dir_all` does nothing, however far it
gets. -/
theorem create_dir_all_blocked {p : Path} (h : ¬ k.Lacks u p) (f : Fault) :
    (create_dir_all k u p f).1 = u := by
  cases f with
  | none => exact Kernel.create_dir_all_same_iff.mpr h
  | error e => rfl
  | lost e gone => rfl
  | part e n => exact Kernel.create_dir_all_same_iff.mpr fun hl => h (lacks_of_upto hl)

/-- A target that can be written has a slot. -/
theorem slot_of_target {p : Path} {x : Loc × String} (h : k.place u p = some x) :
    ∃ y, k.slot u p = some y := by
  obtain ⟨d, n⟩ := x
  obtain ⟨q', m, rfl, hdir⟩ := Kernel.parent_of_place h
  obtain ⟨y, hy, hyd⟩ := Kernel.is_dir_iff.mp hdir
  exact ⟨(y, m), Kernel.slot_child_eq_some.mpr ⟨hy, hyd, rfl⟩⟩

/-- The conduct of a job that can write nothing. -/
def Conduct.blocked (op : Op) (hfree : k.lstat t dst = none) (hl : ¬ k.Lacks t dst) (l : Listing) :
    Conduct k t op dst l where
  tree u := u = t
  ready _ _ := True
  through _ _ := False
  start := ⟨rfl, fun _ _ => trivial⟩
  made := by
    rintro u rel fault rfl -
    exact ⟨create_dir_all_blocked (blocked_lacks hfree hl rel) fault, fun _ _ _ => trivial⟩
  renamed := by
    rintro u u' f - rfl - - hr
    obtain ⟨_, _, d', n', _, -, hs, -⟩ := Kernel.rename_spec hr
    rw [blocked_slot hfree hl] at hs
    cases hs
  copied := by
    rintro u u' f fault res rfl - - hcp
    rcases copy_file_spec hcp with ⟨rfl, e, rfl⟩ | ⟨x, d, n, bs, -, hp, -⟩
    · exact ⟨rfl, fun m hm => (nomatch hm), fun _ _ _ => ⟨id, id⟩⟩
    · obtain ⟨y, hy⟩ := slot_of_target hp
      rw [blocked_slot hfree hl] at hy
      cases hy
  removed := by
    rintro u u' f - - - hover -
    exact hover.elim

/-! ## A way that is made -/

/-- The places on the way to a target, below the last directory that was there: as
names of the destination and of a listed directory. -/
def OnWay (w : List String) (l : Listing) (s : List String) : Prop :=
  (s <+: w ∧ s ≠ w) ∨ ∃ rel ∈ l.dirs, s <+: w ++ rel

/-- What is known of the tree while a job makes its way ahead: directories that were
there stay, the way to its targets is directories as far as it is there, and what is
new is at or below the destination or on the way to it. -/
structure Ahead (k : Kernel) (t : FileTree Bytes) (op : Op) (B : Loc) (w : List String)
    (l : Listing) (u : FileTree Bytes) : Prop where
  dirs : KeepsDirs k.links t u
  way : ∀ s, s ≠ [] → OnWay w l s → u.get (B ++ s) = some .dir ∨ u.get (B ++ s) = none
  rest : ∀ x, u.get x = t.get x ∨ (op = .move ∧ u.get x = none) ∨
    (t.get x = none ∧ (B ++ w <+: x ∨ (x <+: B ++ w ∧ u.get x = some .dir)))

/-- Nothing was below the missing name. -/
theorem Gap.below (hg : Gap k t dst q B w) {s : List String} (hs : s ≠ []) (h : s <+: w ∨ w <+: s) :
    t.get (B ++ s) = none := by
  obtain ⟨m, r, rfl, hm⟩ := hg.free
  have hhead : [m] <+: s := by
    rcases h with h | h
    · obtain ⟨a, s, rfl⟩ := List.exists_cons_of_ne_nil hs
      obtain ⟨rfl, -⟩ := List.cons_prefix_cons.mp h
      exact List.prefix_append [a] s
    · exact (List.prefix_append [m] r).trans h
  exact t.get_none_of_prefix ((List.prefix_append_right_inj B).mpr hhead) hm

/-- The way to a listed file's target is on the way. -/
theorem onWay_parent (hl : IsListing k t src l) {f : Path × List String} (hf : f ∈ l.files)
    {v s : List String} {n : String} (hv : w ++ f.2 = v ++ [n]) (hs : s <+: v) : OnWay w l s := by
  have hmem : f.2 ∈ l.files.map Prod.snd ++ l.dirs :=
    List.mem_append_left _ (List.mem_map_of_mem hf)
  rcases List.eq_nil_or_concat f.2 with hnil | ⟨r, m, hr⟩
  · left
    rw [hnil, List.append_nil] at hv
    rw [hv]
    refine ⟨hs.trans (List.prefix_append v [n]), ?_⟩
    rintro rfl
    have := hs.length_le
    rw [List.length_append, List.length_singleton] at this
    omega
  · right
    rw [List.concat_eq_append] at hr
    rw [hr] at hmem hv
    rw [← List.append_assoc] at hv
    obtain ⟨rfl, -⟩ := List.append_inj' hv rfl
    exact ⟨r, hl.parent hmem, hs⟩

/-- The target itself is not. -/
theorem not_onWay_target (hl : IsListing k t src l) {f : Path × List String} (hf : f ∈ l.files) :
    ¬ OnWay w l (w ++ f.2) := by
  rintro (⟨hp, hne⟩ | ⟨rel, hrel, hp⟩)
  · have hnil : f.2 = [] := by
      have := hp.length_le
      rw [List.length_append] at this
      exact List.eq_nil_of_length_eq_zero (by omega)
    exact hne (by rw [hnil, List.append_nil])
  · exact (hl.leaf hf).2 rel hrel ((List.prefix_append_right_inj w).mp hp)

theorem target_ne_nil (hg : Gap k t dst q B w) (rel : List String) : w ++ rel ≠ [] := by
  obtain ⟨m, r, rfl, -⟩ := hg.free
  exact List.cons_ne_nil m _

/-- Where the target of a listed file is, if it has a directory to be in. -/
theorem Ahead.target (h : Ahead k t op B w l u) (hg : Gap k t dst q B w)
    (hl : IsListing k t src l) {f : Path × List String} (hf : f ∈ l.files) {d : Loc} {n : String}
    (hs : k.slot u (dst.down f.2) = some (d, n)) : d ++ [n] = B ++ (w ++ f.2) := by
  obtain ⟨v, m, hv⟩ : ∃ v m, w ++ f.2 = v ++ [m] := by
    rcases List.eq_nil_or_concat (w ++ f.2) with hnil | ⟨v, m, hv⟩
    · exact absurd hnil (target_ne_nil hg f.2)
    · exact ⟨v, m, by rw [hv, List.concat_eq_append]⟩
  have hst := Kernel.stat_keepsDirs h.dirs hg.base hg.dir
  rw [hg.path, Path.down_down, hv, ← Path.down_child] at hs
  obtain ⟨hd, hdir, rfl⟩ := Kernel.slot_child_eq_some.mp hs
  have hpass : u.Passable B v := by
    intro s hs0 hsv
    exact h.way s hs0 (onWay_parent hl hf hv hsv)
  have hv' : u.get (B ++ v) = some .dir := by
    by_cases hv0 : v = []
    · rw [hv0, List.append_nil]
      exact h.dirs.get_dir hg.dir
    · rcases hpass v hv0 List.prefix_rfl with hdir' | hnone
      · exact hdir'
      · rw [Kernel.stat_below_none hst hpass hnone] at hd
        cases hd
  rw [Kernel.stat_below hst hv'] at hd
  rw [← Option.some.inj hd, hv, List.append_assoc]

/-- A listed file is not where anything is written. -/
theorem Gap.entry_off (hg : Gap k t dst q B w) {x : Loc} (hx : t.get x ≠ none) {s : List String}
    (hs : s ≠ []) (h : s <+: w ∨ w <+: s) : x ≠ B ++ s := by
  rintro rfl
  exact hx (hg.below hs h)

/-- Something is written at the target of a listed file, and perhaps a listed file
goes. -/
theorem Ahead.written (h : Ahead k t op B w l u) (hg : Gap k t dst q B w)
    (hl : IsListing k t src l) {f : Path × List String} (hf : f ∈ l.files) {u' : FileTree Bytes}
    (hget : ∀ x, x ≠ B ++ (w ++ f.2) → u'.get x = u.get x ∨
      (op = .move ∧ k.entry_at t f.1 = some x ∧ u'.get x = none)) :
    Ahead k t op B w l u' := by
  obtain ⟨-, d, n, e, -, -, -, -, he, -, hent, hnl⟩ := entry_of_file hl hf
  have htarget : t.get (B ++ (w ++ f.2)) = none :=
    hg.below (target_ne_nil hg f.2) (.inr (List.prefix_append _ _))
  refine ⟨?_, ?_, ?_⟩
  · intro x m hx
    have hne : x ++ [m] ≠ B ++ (w ++ f.2) := by
      intro heq
      exact get_of_leads hx (heq ▸ htarget)
    rcases hget _ hne with hsame | ⟨-, hgone, -⟩
    · rw [hsame, h.dirs x m hx]
    · rw [hent] at hgone
      obtain ⟨rfl, hm⟩ := List.append_inj' (Option.some.inj hgone) rfl
      obtain rfl := List.singleton_inj.mp hm
      exact absurd hx hnl
  · intro s hs hway
    have hne : B ++ s ≠ B ++ (w ++ f.2) := by
      intro heq
      rw [List.append_cancel_left heq] at hway
      exact not_onWay_target hl hf hway
    rcases hget _ hne with hsame | ⟨-, -, hgone⟩
    · rw [hsame]
      exact h.way s hs hway
    · exact .inr hgone
  · intro x
    by_cases hx : x = B ++ (w ++ f.2)
    · refine .inr (.inr ⟨hx ▸ htarget, .inl ?_⟩)
      rw [hx, ← List.append_assoc]
      exact List.prefix_append _ _
    · rcases hget x hx with hsame | ⟨hmv, -, hgone⟩
      · rw [hsame]
        exact h.rest x
      · exact .inr (.inl ⟨hmv, hgone⟩)

/-- Directories are made on the way. -/
theorem Ahead.made (h : Ahead k t op B w l u) (hg : Gap k t dst q B w) {rel : List String}
    (hrel : rel ∈ l.dirs) (f : Fault) :
    Ahead k t op B w l (create_dir_all k u (dst.down rel) f).1 := by
  have hst := Kernel.stat_keepsDirs h.dirs hg.base hg.dir
  have hB := h.dirs.get_dir hg.dir
  have hgrows := create_dir_all_grows k u (dst.down rel) f
  -- what is made is a first part of the way to the directory
  have hlaid : (create_dir_all k u (dst.down rel) f).1 = u ∨
      ∃ s, s <+: w ++ rel ∧ Laid u B s (create_dir_all k u (dst.down rel) f).1 := by
    have hbelow : ∀ s, s <+: w ++ rel → Laid u B s (k.create_dir_all u (q.down s)).1 := by
      intro s hs
      obtain ⟨u', hu', hlaid⟩ := Kernel.create_dir_all_below hst hB
        fun x hx hxs => h.way x hx (.inr ⟨rel, hrel, hxs.trans hs⟩)
      rw [hu']
      exact hlaid
    rw [hg.path, Path.down_down]
    cases f with
    | none => exact .inr ⟨w ++ rel, List.prefix_rfl, hbelow _ List.prefix_rfl⟩
    | error e => exact .inl rfl
    | lost e gone => exact .inl rfl
    | part e n =>
        rcases Path.upto_down q (w ++ rel) n with hup | ⟨i, hup⟩
        · left
          show (k.create_dir_all u ((q.down (w ++ rel)).upto n)).1 = u
          rw [hup]
          refine Kernel.create_dir_all_same_iff.mpr fun hlacks => ?_
          -- nothing is missing on the way to a directory
          have hno := Kernel.stat_of_lacks (r := []) (lacks_of_upto hlacks)
          rw [Path.down_nil, hst] at hno
          cases hno
        · right
          refine ⟨(w ++ rel).take i, List.take_prefix _ _, ?_⟩
          show Laid u B _ (k.create_dir_all u ((q.down (w ++ rel)).upto n)).1
          rw [hup]
          exact hbelow _ (List.take_prefix _ _)
  rcases hlaid with hsame | ⟨s, hs, hlaid⟩
  · rw [hsame]
    exact h
  · generalize (create_dir_all k u (dst.down rel) f).1 = u' at hgrows hlaid
    refine ⟨?_, ?_, ?_⟩
    · intro x m hx
      obtain ⟨e, he⟩ := Option.ne_none_iff_exists'.mp (get_of_leads hx)
      have hu := h.dirs x m hx
      rw [he] at hu ⊢
      exact hgrows.extends _ _ hu
    · intro x hx hway
      rcases hgrows (B ++ x) with hsame | ⟨-, hdir⟩
      · rw [hsame]
        exact h.way x hx hway
      · exact .inl hdir
    · intro x
      by_cases hx : ∃ y, y ≠ [] ∧ y <+: s ∧ x = B ++ y
      · obtain ⟨y, hy, hys, rfl⟩ := hx
        have hyw := List.prefix_or_prefix_of_prefix (hys.trans hs) (List.prefix_append w rel)
        refine .inr (.inr ⟨hg.below hy hyw, ?_⟩)
        rcases hyw with hyw | hyw
        · exact .inr ⟨(List.prefix_append_right_inj B).mpr hyw, hlaid.made y hy hys⟩
        · exact .inl ((List.prefix_append_right_inj B).mpr hyw)
      · have hrest : u'.get x = u.get x :=
          hlaid.rest x fun y hy hys he => hx ⟨y, hy, hys, he⟩
        rw [hrest]
        exact h.rest x

theorem Ahead.start (hg : Gap k t dst q B w) : Ahead k t op B w l t where
  dirs := KeepsDirs.refl t
  way := by
    rintro s hs (⟨hsw, -⟩ | ⟨rel, -, hsw⟩)
    · exact .inr (hg.below hs (.inl hsw))
    · exact .inr (hg.below hs (List.prefix_or_prefix_of_prefix hsw (List.prefix_append w rel)))
  rest := fun _ => .inl rfl

/-- What a target leads to is the target, while no link is there. -/
theorem Ahead.place (h : Ahead k t op B w l u) (hg : Gap k t dst q B w)
    (hl : IsListing k t src l) {f : Path × List String} (hf : f ∈ l.files)
    (hlink : u.linkAt (B ++ (w ++ f.2)) = none) {d : Loc} {n : String}
    (hp : k.place u (dst.down f.2) = some (d, n)) : d ++ [n] = B ++ (w ++ f.2) := by
  obtain ⟨⟨d', n'⟩, hs⟩ := slot_of_target hp
  have htarget := h.target hg hl hf hs
  obtain ⟨q', hq', hst, hdir⟩ := Kernel.slot_spec hs
  rw [← htarget] at hlink
  rw [hq', Kernel.place_child hst hdir hlink] at hp
  cases hp
  exact htarget

/-- The conduct of a job that makes its own way. -/
def Conduct.ahead (op : Op) (hg : Gap k t dst q B w) (hl : IsListing k t src l) :
    Conduct k t op dst l where
  tree := Ahead k t op B w l
  ready u f := u.linkAt (B ++ (w ++ f.2)) = none
  through _ _ := True
  start := by
    refine ⟨Ahead.start hg, fun f _ => linkAt_of_none ?_⟩
    exact hg.below (target_ne_nil hg f.2) (.inr (List.prefix_append _ _))
  made := by
    intro u rel fault h hrel
    refine ⟨h.made hg hrel fault, fun f _ hready => ?_⟩
    rw [(create_dir_all_grows k u (dst.down rel) fault).linkAt, hready]
  renamed := by
    intro u u' f hmv h hf hready hr
    obtain ⟨-, d, n, e, -, hs, -, -, he, hne, hent, -⟩ := entry_of_file hl hf
    have hsu := Kernel.slot_keepsDirs h.dirs hs
    obtain ⟨_, _, d', n', e', h₁, hs', he', -⟩ := Kernel.rename_spec hr
    rw [hsu] at h₁
    cases h₁
    have htarget := h.target hg hl hf hs'
    have hoff : d ++ [n] ≠ d' ++ [n'] := by
      rw [htarget]
      exact hg.entry_off (by rw [he]; simp) (target_ne_nil hg f.2) (.inr (List.prefix_append _ _))
    -- what is there is still what was listed
    have hsame : e' = e := by
      rcases h.rest (d ++ [n]) with h₀ | ⟨-, h₀⟩ | ⟨h₀, -⟩
      · rw [he', he] at h₀
        exact Option.some.inj h₀
      · rw [he'] at h₀
        cases h₀
      · rw [he] at h₀
        cases h₀
    subst hsame
    obtain ⟨-, hget⟩ := Kernel.rename_leaf_spec hr hsu hs' he' hne hoff
    rw [htarget] at hget
    refine ⟨h.written hg hl hf fun x hx => ?_, trivial, fun g hg' hgf => ⟨fun hrg => ?_, id⟩⟩
    · rw [hget, if_neg hx]
      split
      · rename_i hxs
        exact .inr ⟨hmv, hxs ▸ hent, rfl⟩
      · exact .inl rfl
    · have hne₁ : B ++ (w ++ g.2) ≠ B ++ (w ++ f.2) := by
        intro heq
        have hrel := List.append_cancel_left (List.append_cancel_left heq)
        exact hgf ((hl.leaf hf).1 g hg' (hrel ▸ List.prefix_rfl))
      have hne₂ : B ++ (w ++ g.2) ≠ d ++ [n] :=
        (hg.entry_off (by rw [he]; simp) (target_ne_nil hg g.2)
          (.inr (List.prefix_append _ _))).symm
      exact (linkAt_of_get_eq (by rw [hget, if_neg hne₁, if_neg hne₂])).trans hrg
  copied := by
    intro u u' f fault res h hf hready hcp
    rcases copy_file_spec hcp with ⟨rfl, e, rfl⟩ | ⟨x, d, n, bs, -, hp, -, -, hget, -⟩
    · exact ⟨h, fun _ _ => trivial, fun _ _ _ => ⟨id, id⟩⟩
    · have htarget := h.place hg hl hf hready hp
      rw [htarget] at hget
      refine ⟨h.written hg hl hf fun x hx => .inl ?_, fun _ _ => trivial,
        fun g hg' hgf => ⟨fun hrg => ?_, id⟩⟩
      · rw [hget, if_neg hx]
      · have hne : B ++ (w ++ g.2) ≠ B ++ (w ++ f.2) := by
          intro heq
          have hrel := List.append_cancel_left (List.append_cancel_left heq)
          exact hgf ((hl.leaf hf).1 g hg' (hrel ▸ List.prefix_rfl))
        exact (linkAt_of_get_eq (by rw [hget, if_neg hne])).trans hrg
  removed := by
    intro u u' f hmv h hf _ hr
    obtain ⟨-, d, n, e, -, hs, -, -, he, hne, hent, -⟩ := entry_of_file hl hf
    obtain ⟨d', n', e', hs', he', -, hget⟩ := Kernel.remove_file_spec hr
    rw [Kernel.slot_keepsDirs h.dirs hs] at hs'
    cases hs'
    refine ⟨h.written hg hl hf fun x hx => ?_, trivial, fun g hg' hgf => ⟨fun hrg => ?_, id⟩⟩
    · rw [hget]
      split
      · rename_i hxs
        exact .inr ⟨hmv, hxs ▸ hent, rfl⟩
      · exact .inl rfl
    · have hne₂ : B ++ (w ++ g.2) ≠ d ++ [n] :=
        (hg.entry_off (by rw [he]; simp) (target_ne_nil hg g.2)
          (.inr (List.prefix_append _ _))).symm
      exact (linkAt_of_get_eq (by rw [hget, if_neg hne₂])).trans hrg

/-! ## What comes of it -/

theorem Gap.locate (hg : Gap k t dst q B w) : k.locate t dst = some (B ++ w) := by
  rw [hg.path]
  exact FileTree.locate_down_names (Kernel.locate_of_stat hg.base) fun s hs hsw =>
    linkAt_of_none (hg.below hs (.inl hsw))

theorem Gap.spared (hg : Gap k t dst q B w)
    (h : ∀ x, u.get x = t.get x ∨ (op = .move ∧ u.get x = none) ∨
      (t.get x = none ∧ (B ++ w <+: x ∨ (x <+: B ++ w ∧ u.get x = some .dir)))) :
    Spared k t op dst u := by
  intro x
  rcases h x with hx | hx | ⟨hx, hnew⟩
  · exact .inl hx
  · exact .inr (.inl hx)
  · have hnone : t.get (B ++ w) = none := by
      have := hg.below (target_ne_nil hg []) (.inl (by rw [List.append_nil]))
      rwa [List.append_nil] at this
    exact .inr (.inr ⟨hx, B ++ w, hg.locate, hnone, hnew⟩)

/-- A name can be put at the destination only if nothing else is missing. -/
theorem Gap.slot (hg : Gap k t dst q B w) {d : Loc} {n : String} (hs : k.slot t dst = some (d, n)) :
    d ++ [n] = B ++ w := by
  obtain ⟨v, m, hv⟩ : ∃ v m, w = v ++ [m] := by
    rcases List.eq_nil_or_concat w with hnil | ⟨v, m, hv⟩
    · exact absurd (by rw [hnil]; rfl) (target_ne_nil hg [])
    · exact ⟨v, m, by rw [hv, List.concat_eq_append]⟩
  rw [hg.path, hv, ← Path.down_child] at hs
  obtain ⟨hd, -, hmn⟩ := Kernel.slot_child_eq_some.mp hs
  have hnone : ∀ s, s ≠ [] → s <+: v → t.get (B ++ s) = none := by
    intro s hs0 hsv
    exact hg.below hs0 (.inl (hv ▸ hsv.trans (List.prefix_append v [m])))
  have hv0 : v = [] := by
    by_contra hv0
    rw [Kernel.stat_below_none hg.base (fun s hs0 hsv => .inr (hnone s hs0 hsv))
      (hnone v hv0 List.prefix_rfl)] at hd
    cases hd
  subst hv0
  rw [Path.down_nil, hg.base] at hd
  rw [← Option.some.inj hd, hv, List.nil_append, hmn]

/-- One rename of the whole. -/
theorem Gap.spared_rename (hg : Gap k t dst q B w) (hmv : op = .move)
    (hr : k.rename t src dst = .ok u) : Spared k t op dst u := by
  obtain ⟨d, n, d', n', e, -, hs', -, -, -, hcase⟩ := Kernel.rename_spec hr
  have htarget := hg.slot hs'
  apply hg.spared
  intro x
  rcases hcase with ⟨-, rfl⟩ | ⟨-, -, -, -, hget⟩
  · exact .inl rfl
  · rw [hget, htarget]
    by_cases hx : B ++ w <+: x
    · refine .inr (.inr ⟨?_, .inl hx⟩)
      have hnone := hg.below (target_ne_nil hg []) (.inl (by rw [List.append_nil]))
      rw [List.append_nil] at hnone
      exact t.get_none_of_prefix hx hnone
    · rw [if_neg hx]
      split
      · exact .inr (.inl ⟨hmv, rfl⟩)
      · exact .inl rfl

/-- Removing the source takes away and adds nothing. -/
theorem Spared.cleaned (h : Spared k t op dst u) (hmv : op = .move) (b : Path.Tail) (f : Fault) :
    Spared k t op dst (remove_dir_all_at k u src b f).1 := by
  intro x
  rcases remove_dir_all_at_get k u src b f x with hx | ⟨hx, -⟩
  · rw [hx]
    exact h x
  · exact .inr (.inl ⟨hmv, hx⟩)

theorem Spared.refl (k : Kernel) (t : FileTree Bytes) (op : Op) (dst : Path) :
    Spared k t op dst t := fun _ => .inl rfl

theorem spared_of_outcome {C : ∀ l, IsListing k t src l → Conduct k t op dst l}
    (h : Conduct.Outcome C u)
    (hrename : op = .move → ∀ v, k.rename t src dst = .ok v → Spared k t op dst v)
    (htree : ∀ l hl v, (C l hl).tree v → Spared k t op dst v) : Spared k t op dst u := by
  rcases h with rfl | ⟨hmv, hr⟩ | ⟨l, hl, v, hv, rfl | ⟨hmv, b, f, rfl⟩⟩
  · exact Spared.refl k u op dst
  · exact hrename hmv u hr
  · exact htree l hl u hv
  · exact (htree l hl v hv).cleaned hmv b f

end

/-- A job to a free path, with names alone behind what is missing on the way to it,
spares whatever there is. -/
theorem spared_run {k : Kernel} {t : FileTree Bytes} {op : Op} {src dst : PathBuf}
    (hfree : k.lstat t dst.path = none) (ho : Onward k t dst.path) (h : Host) (job : Job)
    {s : FileTree Bytes × Runner} (hrun : Reach (alone k) Any (t, .start h op src dst job) s) :
    Spared k t op dst.path s.1 := by
  by_cases hl : k.Lacks t dst.path
  · obtain ⟨q, B, w, hg⟩ := gap_of_lacks ho hl
    refine spared_of_outcome (Conduct.run_spec (fun _ hl => Conduct.ahead op hg hl) h job hrun)
      (fun hmv v hr => hg.spared_rename hmv hr) fun l hl v hv => ?_
    exact hg.spared (show Ahead k t op B w l v from hv).rest
  · refine spared_of_outcome
      (Conduct.run_spec (fun l _ => Conduct.blocked op hfree hl l) h job hrun) ?_ ?_
    · intro _ v hr
      obtain ⟨_, _, _, _, _, -, hs, -⟩ := Kernel.rename_spec hr
      have hno := blocked_slot hfree hl []
      rw [Path.down_nil, hs] at hno
      cases hno
    · intro l hl' v hv
      have hvt : v = t := hv
      rw [hvt]
      exact Spared.refl k t op dst.path

/-- With the strategy `rename` a request that is accepted goes to what `free_dst`
makes of its destination, there or not. -/
theorem resolve_rename {k : Kernel} {t : FileTree Bytes} {src dst final_dst : PathBuf}
    (h : resolve k t src dst .rename = .ok final_dst) :
    final_dst = free_dst k t (dest_for k t src dst) := by
  unfold resolve at h
  split at h
  · cases h
  · dsimp only at h
    split at h
    · cases h
    · split at h
      · cases h
      · split at h
        · cases h
          rfl
        · rename_i hx
          cases h
          unfold free_dst
          rw [if_neg hx]

/-- **The strategy `rename`.** `free_dst` returns a free name in the parent
directory, the one asked for or its stem with a number and its extension, exactly
when it comes to a free name before any link that leads nowhere and before its
names run out. Then a job that goes there alone overwrites nothing and merges into
nothing, under every schedule and whichever calls fail, if behind what is missing
on the way there are names alone. -/
theorem rename_strategy_spares (k : Kernel) (t : FileTree Bytes) (dst : PathBuf) :
    (Lands k t dst (free_dst k t dst) ↔ FreeFirst k t dst) ∧
      ∀ (h : Host) (op : Op) (src req final_dst : PathBuf) (s : FileTree Bytes × Runner),
        dest_for k t src req = dst → resolve k t src req .rename = .ok final_dst →
        FreeFirst k t dst → Onward k t final_dst.path →
        Reach (alone k) Any (t, spawn h op src final_dst) s →
          Spared k t op final_dst.path s.1 := by
  refine ⟨lands_iff k t dst, ?_⟩
  intro h op src req final_dst s hdst hres hfree ho hrun
  have hfinal := resolve_rename hres
  rw [hdst] at hfinal
  have hlands := (lands_iff k t dst).mpr hfree
  rw [← hfinal] at hlands
  exact spared_run hlands.free ho h _ hrun

/-- A file and a name that is taken. -/
def tree_taken : FileTree Bytes :=
  (FileTree.empty.with_ [] "a" (.file [1])).with_ [] "x" (.file [2])

/-- `/a` copied to `/x` becomes `/x_2`, and `/x` stays. -/
theorem copy_is_numbered : ∃ s : FileTree Bytes × Runner, s.2.phase = .finished ∧
    box.read s.1 (.abs ["x_2"]) = some [1] ∧
      Lands box tree_taken (.abs ["x"]) (free_dst box tree_taken (.abs ["x"])) ∧
        Spared box tree_taken .copy (.abs ["x_2"]) s.1 := by
  have hfinal : resolve box tree_taken (.abs ["a"]) (.abs ["x"]) .rename = .ok (.abs ["x_2"]) := by
    decide
  have hfirst : FreeFirst box tree_taken (.abs ["x"]) := by
    have hhead : (numbered (.abs ["x"])).head? = some (.abs ["x_2"]) := by decide
    refine ⟨[.abs ["x"]], .abs ["x_2"], (numbered (.abs ["x"])).tail, ?_, ?_, by decide,
      .inr (by decide)⟩
    · rw [List.cons_head?_tail hhead]
      rfl
    · intro p hp
      rw [List.mem_singleton.mp hp]
      decide
  have ho : Onward box tree_taken (PathBuf.abs ["x_2"]).path := by
    intro i d n hs _
    cases i with
    | zero => cases hs
    | succ i => exact ⟨[], by simp [Path.upto, Path.down, PathBuf.abs, Path.abs, Path.names]⟩
  have hrun : (exec (alone box) (tree_taken, spawn box_host .copy (.abs ["a"]) (.abs ["x_2"]))
      [.main .none, .walk 3, .main .none, .main .none, .worker 0 .none, .worker 0 .none,
        .worker 0 .none, .worker 0 .none, .worker 0 .none, .worker 0 .none, .main .none,
        .main .none, .main .none]).map
          (fun s => (s.2.phase, box.read s.1 (.abs ["x_2"]))) = some (.finished, some [1]) := by
    decide
  obtain ⟨s, hs, hout⟩ := Option.map_eq_some_iff.mp hrun
  obtain ⟨hend, hread⟩ := Prod.mk.inj hout
  have h := rename_strategy_spares box tree_taken (.abs ["x"])
  exact ⟨s, hend, hread, h.1.mpr hfirst, h.2 box_host .copy (.abs ["a"]) (.abs ["x"])
    (.abs ["x_2"]) s (by decide) hfinal hfirst ho (reach_of_exec hs)⟩

-- behind a separator there is only a directory, so that the file is not noticed
example : free_dst box tree_taken ⟨.abs ["x"], "/x/", .slash⟩ = ⟨.abs ["x"], "/x/", .slash⟩ := by
  decide

/-- A file, and a link that leads nowhere. -/
def tree_dangling : FileTree Bytes :=
  (FileTree.empty.with_ [] "a" (.file [1])).with_ [] "x" (.symlink (.abs ["none"]))

/-- `/a` moved to `/x`: the link there passes for a free name, and the file takes
its place. -/
theorem free_dst_lands_on_link :
    ¬ Lands box tree_dangling (.abs ["x"]) (free_dst box tree_dangling (.abs ["x"])) ∧
      resolve box tree_dangling (.abs ["a"]) (.abs ["x"]) .rename = .ok (.abs ["x"]) ∧
        ∃ s, Reach (alone box) Any (tree_dangling, spawn box_host .move (.abs ["a"]) (.abs ["x"])) s ∧
          ¬ Spared box tree_dangling .move (.abs ["x"]) s.1 := by
  have hlinked : box.lstat tree_dangling (.abs ["x"]) = some (.symlink (.abs ["none"])) := by decide
  have hfinal : free_dst box tree_dangling (.abs ["x"]) = .abs ["x"] := by decide
  have hrun : (exec (alone box) (tree_dangling, spawn box_host .move (.abs ["a"]) (.abs ["x"]))
      [.main .none, .walk 3, .main .none, .main .none]).map
        (fun s => s.1.get ["x"]) = some (some (.file [1])) := by
    decide
  obtain ⟨s, hs, hfile⟩ := Option.map_eq_some_iff.mp hrun
  refine ⟨?_, by decide, s, reach_of_exec hs, ?_⟩
  · intro h
    have hfree := h.free
    rw [hfinal] at hfree
    cases hlinked.symm.trans hfree
  · intro h
    rcases h ["x"] with hx | ⟨-, hx⟩ | ⟨hx, -⟩
    · rw [hfile] at hx
      exact absurd hx (by decide)
    · rw [hfile] at hx
      cases hx
    · exact absurd hx (by decide)

end WebDavs.Mover
