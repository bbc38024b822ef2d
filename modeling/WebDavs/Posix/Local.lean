/-
What a call looks at, and what it changes.

Two trees that are the same on a set of places are the same for every call whose
path runs through those places only: it gives the same answer, and leaves the two
trees the same there again (`Alike`). And a call changes nothing but what its path
names (`Within`). The paths in question name a place with no link at or below it
(`Rooted`), so that where they lead does not depend on what becomes of the entries
there.

Of the order in which a directory is read only this is said, that a directory
keeps its order when nothing is changed in it.
-/
import WebDavs.Posix.Lasting
import WebDavs.Posix.Making

set_option autoImplicit false

namespace WebDavs.Posix

variable {α : Type}

namespace FileTree

/-! ## Trees that are the same in some places -/

/-- On `V`, `v` is as `u`. -/
def Same (V : Loc → Prop) (u v : FileTree α) : Prop := ∀ x, V x → v.get x = u.get x

/-- A directory whose names lie in `V` is read in the same order. -/
def SameOrder (V : Loc → Prop) (u v : FileTree α) : Prop :=
  ∀ l, (∀ n, V (l ++ [n])) → v.dom.filterMap (childName l) = u.dom.filterMap (childName l)

/-- From `u` to `u'` nothing but what lies in `W` has changed, and no link has come
or gone. -/
structure Within (W : Loc → Prop) (u u' : FileTree α) : Prop where
  get : ∀ x, ¬ W x → u'.get x = u.get x
  link : ∀ x, u'.linkAt x = u.linkAt x
  order : SameOrder (fun x => ¬ W x) u u'

section

variable {V W : Loc → Prop} {u v w : FileTree α}

theorem Same.refl (V : Loc → Prop) (u : FileTree α) : Same V u u := fun _ _ => rfl

theorem Same.symm (h : Same V u v) : Same V v u := fun x hx => (h x hx).symm

theorem Same.link (h : Same V u v) {x : Loc} (hx : V x) : v.linkAt x = u.linkAt x :=
  linkAt_of_get_eq (h x hx)

theorem SameOrder.trans (h : SameOrder V u v) (h' : SameOrder V v w) : SameOrder V u w :=
  fun l hl => (h' l hl).trans (h l hl)

theorem Within.refl (W : Loc → Prop) (u : FileTree α) : Within W u u :=
  ⟨fun _ _ => rfl, fun _ => rfl, fun _ _ => rfl⟩

theorem Within.trans (h : Within W u v) (h' : Within W v w) : Within W u w where
  get x hx := (h'.get x hx).trans (h.get x hx)
  link x := (h'.link x).trans (h.link x)
  order := h.order.trans h'.order

/-- The names in a directory, by the order of `dom` alone. -/
theorem children_eq (u : FileTree α) (l : Loc) : u.children l =
    ((u.dom.filterMap (childName l)).filter fun n => (u.get (l ++ [n])).isSome).dedup := by
  unfold children
  congr 1
  induction u.dom with
  | nil => rfl
  | cons x xs ih =>
      cases hc : childName l x with
      | none =>
          rw [List.filterMap_cons_none hc, ← ih, List.filter_cons]
          split
          · exact List.filterMap_cons_none hc
          · rfl
      | some n =>
          obtain rfl := childName_eq_some.mp hc
          rw [List.filterMap_cons_some hc, List.filter_cons, List.filter_cons]
          split
          · rw [List.filterMap_cons_some hc, ih]
          · exact ih

theorem children_same (h : Same V u v) (ho : SameOrder V u v) {l : Loc}
    (hl : ∀ n, V (l ++ [n])) : v.children l = u.children l := by
  rw [children_eq, children_eq, ho l hl]
  congr 2
  funext n
  rw [h _ (hl n)]

theorem children_empty_same (h : Same V u v) {l : Loc} (hl : ∀ n, V (l ++ [n])) :
    v.children l = [] ↔ u.children l = [] := by
  rw [children_eq_nil, children_eq_nil]
  exact forall_congr' fun n => by rw [h _ (hl n)]

/-! ## The four ways to change a tree -/

theorem put_same (h : Same V u v) {d : Loc} {n : String} {e : Entry α}
    {hd : u.get d = some .dir} {hn : u.get (d ++ [n]) ≠ some .dir} {hd' : v.get d = some .dir}
    {hn' : v.get (d ++ [n]) ≠ some .dir} : Same V (u.put d n e hd hn) (v.put d n e hd' hn') := by
  intro x hx
  rw [get_put, get_put, h x hx]

theorem erase_same (h : Same V u v) {l : Loc} {hl hl' : l ≠ []} :
    Same V (u.erase l hl) (v.erase l hl') := by
  intro x hx
  rw [get_erase, get_erase, h x hx]

theorem eraseAll_same (h : Same V u v) (ls : List Loc) : Same V (u.eraseAll ls) (v.eraseAll ls) := by
  induction ls generalizing u v with
  | nil => exact h
  | cons l ls ih =>
      unfold eraseAll
      split
      · exact ih (erase_same h)
      · exact ih h

theorem graft_same (h : Same V u v) {a d : Loc} {n : String} {ha ha' : a ≠ []}
    {hd : u.get d = some .dir} {hd' : v.get d = some .dir} {had had' : ¬ a <+: d}
    (hsub : ∀ r, V (a ++ r)) : Same V (u.graft a d n ha hd had) (v.graft a d n ha' hd' had') := by
  intro x hx
  rw [get_graft, get_graft, h x hx, h _ (hsub _)]

theorem put_within {d : Loc} {n : String} {e : Entry α} {hd : u.get d = some .dir}
    {hn : u.get (d ++ [n]) ≠ some .dir} (hw : W (d ++ [n])) (hl : u.linkAt (d ++ [n]) = none)
    (he : ∀ tgt, e ≠ .symlink tgt) : Within W u (u.put d n e hd hn) where
  get x hx := by
    rw [get_put, if_neg]
    rintro rfl
    exact hx hw
  link x := by
    by_cases hxd : x = d ++ [n]
    · rw [hxd, hl]
      exact linkAt_of_ne_symlink (by rw [get_put, if_pos rfl]) he
    · exact linkAt_of_get_eq (by rw [get_put, if_neg hxd])
  order l hl' := by
    -- the new place is in no such directory
    have hnone : childName l (d ++ [n]) = none := by
      rw [Option.eq_none_iff_forall_ne_some]
      intro m hm
      exact hl' m (childName_eq_some.mp hm ▸ hw)
    exact List.filterMap_cons_none hnone

theorem erase_within {l : Loc} {hl : l ≠ []} (hw : ∀ r, W (l ++ r))
    (hlink : ∀ r, u.linkAt (l ++ r) = none) : Within W u (u.erase l hl) where
  get x hx := by
    rw [get_erase, if_neg]
    rintro ⟨r, rfl⟩
    exact hx (hw r)
  link x := by
    by_cases hp : l <+: x
    · obtain ⟨r, rfl⟩ := hp
      rw [hlink r]
      exact linkAt_of_none (by rw [get_erase, if_pos (List.prefix_append _ _)])
    · exact linkAt_of_get_eq (by rw [get_erase, if_neg hp])
  order _ _ := rfl

theorem eraseAll_within {l : Loc} (hw : ∀ r, W (l ++ r)) (hlink : ∀ r, u.linkAt (l ++ r) = none)
    {ls : List Loc} (hls : ∀ y ∈ ls, l <+: y) : Within W u (u.eraseAll ls) := by
  induction ls generalizing u with
  | nil => exact Within.refl W u
  | cons y ls ih =>
      obtain ⟨s, rfl⟩ := hls y List.mem_cons_self
      have htail : ∀ z ∈ ls, l <+: z := fun z hz => hls z (List.mem_cons_of_mem _ hz)
      unfold eraseAll
      split
      · rename_i hne
        have hone : Within W u (u.erase (l ++ s) hne) :=
          erase_within (fun r => by rw [List.append_assoc]; exact hw _)
            fun r => by rw [List.append_assoc]; exact hlink _
        exact hone.trans (ih (fun r => (hone.link _).trans (hlink r)) htail)
      · exact ih hlink htail

theorem graft_within {a d : Loc} {n : String} {ha : a ≠ []} {hd : u.get d = some .dir}
    {had : ¬ a <+: d} (hwa : ∀ r, W (a ++ r)) (hwb : ∀ r, W (d ++ [n] ++ r))
    (hla : ∀ r, u.linkAt (a ++ r) = none) (hlb : ∀ r, u.linkAt (d ++ [n] ++ r) = none) :
    Within W u (u.graft a d n ha hd had) where
  get x hx := by
    rw [get_graft, if_neg, if_neg]
    · rintro ⟨r, rfl⟩
      exact hx (hwa r)
    · rintro ⟨r, rfl⟩
      exact hx (hwb r)
  link x := by
    by_cases hb : d ++ [n] <+: x
    · obtain ⟨r, rfl⟩ := hb
      rw [hlb r, ← hla r]
      unfold linkAt
      rw [get_graft, if_pos (List.prefix_append _ _), List.drop_left]
    · by_cases hp : a <+: x
      · obtain ⟨r, rfl⟩ := hp
        rw [hla r]
        exact linkAt_of_none (by rw [get_graft, if_neg hb, if_pos (List.prefix_append _ _)])
      · exact linkAt_of_get_eq (by rw [get_graft, if_neg hb, if_neg hp])
  order l hl := by
    -- what is added lies at and below the new place, in no such directory
    have hnone : ∀ x ∈ u.dom.map fun x => (d ++ [n]) ++ x.drop a.length, childName l x = none := by
      intro x hx
      obtain ⟨y, -, rfl⟩ := List.mem_map.mp hx
      rw [Option.eq_none_iff_forall_ne_some]
      intro m hm
      exact hl m (childName_eq_some.mp hm ▸ hwb _)
    show (u.dom ++ u.dom.map fun x => (d ++ [n]) ++ x.drop a.length).filterMap (childName l) = _
    rw [List.filterMap_append, List.filterMap_eq_nil_iff.mpr hnone, List.append_nil]

end

end FileTree

namespace Kernel

open FileTree

variable {k : Kernel} {V W : Loc → Prop} {u v u' : FileTree α} {p q : Path} {P Q : Loc}

/-! ## Paths that stay in `V` -/

/-- `p` starts in `V` and runs through places in `V` only. -/
structure Seen (k : Kernel) (V : Loc → Prop) (u : FileTree α) (p : Path) : Prop where
  start : V (k.start p)
  way : ∀ x ∈ k.trail u p, V x

/-- `p` names the place `P`, whether or not anything is there: a name in a
directory, with no link at or below it. -/
structure Rooted (k : Kernel) (V : Loc → Prop) (u : FileTree α) (p : Path) (P : Loc) : Prop where
  spot : ∃ q n d, p = Path.child q n ∧ k.locate u q = some d ∧ P = d ++ [n]
  seen : Seen k V u p
  below : ∀ r, V (P ++ r)
  plain : ∀ r, u.linkAt (P ++ r) = none

theorem Seen.congr (h : Seen k V u p) (hl : ∀ x, V x → v.linkAt x = u.linkAt x) :
    k.locate v p = k.locate u p ∧ Seen k V v p := by
  obtain ⟨hloc, htrail⟩ := locate_trail fun x hx => hl x (h.way x hx)
  refine ⟨hloc, h.start, ?_⟩
  rw [htrail]
  exact h.way

theorem Seen.parent {n : String} (h : Seen k V u (q.child n)) : Seen k V u q :=
  ⟨h.start, fun x hx => h.way x (k.trail_subset_child u q n hx)⟩

theorem trail_upto (i : Nat) {x : Loc} (hx : x ∈ k.trail u (p.upto i)) : x ∈ k.trail u p := by
  unfold trail at hx ⊢
  rw [trail_eq] at hx ⊢
  rw [← List.take_append_drop i p.comps, trailFrom_append]
  exact List.mem_append_left _ hx

/-- A `.` leads nowhere else. -/
theorem trail_dotted (k : Kernel) (u : FileTree α) (p : Path) :
    k.trail u p.dotted = k.trail u p := by
  unfold trail
  rw [trail_eq, trail_eq, Path.dotted, trailFrom_append]
  cases aim u (u.aimLink k.links) (if p.root then [] else k.cwd) p.comps with
  | none => simp
  | some l => simp [trailFrom]

theorem Seen.tailed (h : Seen k V u p) (b : Path.Tail) : Seen k V u (p.tailed b) := by
  unfold Path.tailed
  split
  · exact h
  · exact ⟨h.start, fun x hx => h.way x (by rwa [trail_dotted] at hx)⟩

theorem Seen.upto (h : Seen k V u p) (i : Nat) : Seen k V u (p.upto i) :=
  ⟨h.start, fun x hx => h.way x (trail_upto i hx)⟩

theorem Rooted.congr (h : Rooted k V u p P) (hl : ∀ x, V x → v.linkAt x = u.linkAt x) :
    Rooted k V v p P := by
  obtain ⟨q, n, d, rfl, hq, rfl⟩ := h.spot
  refine ⟨⟨q, n, d, rfl, ?_, rfl⟩, (h.seen.congr hl).2, h.below, fun r => ?_⟩
  · rw [(h.seen.parent.congr hl).1, hq]
  · rw [hl _ (h.below r), h.plain r]

theorem Rooted.link (h : Rooted k V u p P) : u.linkAt P = none := by
  simpa using h.plain []

/-- A name that is no link names a place in the directory. -/
theorem locate_child {d : Loc} {n : String} (hq : k.locate u q = some d)
    (hl : u.linkAt (d ++ [n]) = none) : k.locate u (q.child n) = some (d ++ [n]) := by
  refine locate_down_names (r := [n]) hq fun s hs0 hs => ?_
  rcases List.prefix_concat_iff.mp (show s <+: [] ++ [n] from hs) with rfl | hnil
  · exact hl
  · exact absurd (List.prefix_nil.mp hnil) hs0

theorem Rooted.locate (h : Rooted k V u p P) : k.locate u p = some P := by
  obtain ⟨q, n, d, rfl, hq, rfl⟩ := h.spot
  exact locate_child hq h.link

theorem Rooted.down (h : Rooted k V u p P) (r : List String) :
    Rooted k V u (p.down r) (P ++ r) where
  spot := by
    rcases List.eq_nil_or_concat r with rfl | ⟨s, n, rfl⟩
    · obtain ⟨q, n, d, hp, hq, hP⟩ := h.spot
      exact ⟨q, n, d, by rw [Path.down_nil, hp], hq, by rw [List.append_nil, hP]⟩
    · rw [List.concat_eq_append]
      refine ⟨p.down s, n, P ++ s, by rw [Path.down_child], ?_, by rw [List.append_assoc]⟩
      exact locate_down_names h.locate fun s' _ _ => h.plain s'
  seen := by
    refine ⟨h.seen.start, fun x hx => ?_⟩
    rcases mem_trail_down h.locate (fun s _ _ => h.plain s) hx with hx | ⟨s, -, -, rfl⟩
    · exact h.seen.way x hx
    · exact h.below s
  below s := by
    rw [List.append_assoc]
    exact h.below _
  plain s := by
    rw [List.append_assoc]
    exact h.plain _

/-- The slot of such a path is the place it names. -/
theorem Rooted.slot (h : Rooted k V u p P) {d : Loc} {n : String}
    (hs : k.slot u p = some (d, n)) : d ++ [n] = P ∧ u.get d = some .dir := by
  obtain ⟨q, m, d', rfl, hq, rfl⟩ := h.spot
  obtain ⟨hst, hd, rfl⟩ := slot_child_eq_some.mp hs
  rw [locate_of_stat hst] at hq
  exact ⟨by rw [Option.some.inj hq], hd⟩

theorem Rooted.stat (h : Rooted k V u p P) {l : Loc} (hs : k.stat u p = some l) : l = P := by
  have := locate_of_stat hs
  rw [h.locate] at this
  exact (Option.some.inj this).symm

/-- A path that leads somewhere is a name in a directory. -/
theorem Rooted.slot_of_stat (h : Rooted k V u p P) {l : Loc} (hs : k.stat u p = some l) :
    ∃ d n, k.slot u p = some (d, n) := by
  obtain ⟨q, m, d, rfl, -, -⟩ := h.spot
  cases hslot : k.slot u (q.child m) with
  | some s => exact ⟨s.1, s.2, rfl⟩
  | none =>
      rw [stat_child_of_no_slot hslot] at hs
      cases hs

/-- What opening it for writing would make is in its slot. -/
theorem Rooted.place (h : Rooted k V u p P) : k.place u p = k.slot u p := by
  obtain ⟨q, m, d, rfl, hq, rfl⟩ := h.spot
  cases hs : k.slot u (q.child m) with
  | some s =>
      obtain ⟨d', n⟩ := s
      obtain ⟨hst, hd, rfl⟩ := slot_child_eq_some.mp hs
      refine place_child hst hd ?_
      rw [(h.slot hs).1]
      exact h.link
  | none =>
      -- without a directory to be in there is nowhere to write
      rw [Option.eq_none_iff_forall_ne_some]
      intro s hp
      obtain ⟨q', m', hqm, hdir⟩ := parent_of_place hp
      obtain ⟨rfl, rfl⟩ : q = q' ∧ m = m' := by
        have hpar := congrArg Path.parent hqm
        have hname := congrArg Path.file_name hqm
        simpa using And.intro hpar hname
      obtain ⟨x, hx, hxd⟩ := is_dir_iff.mp hdir
      rw [slot_child_eq_some.mpr ⟨hx, hxd, rfl⟩] at hs
      cases hs

/-- The entry such a path names, if it has one, is at its place. -/
theorem Rooted.entry_at (h : Rooted k V u p P) {x : Loc} (he : k.entry_at u p = some x) :
    x = P := by
  cases hs : k.slot u p with
  | some s =>
      obtain ⟨d, n⟩ := s
      rw [entry_at_of_slot hs] at he
      rw [← Option.some.inj he, (h.slot hs).1]
  | none => exact h.stat (entry_at_of_no_slot he hs)

theorem Rooted.mem_trail (h : Rooted k V u p P) : P ∈ k.trail u p := by
  obtain ⟨q, n, d, rfl, hq, rfl⟩ := h.spot
  rw [Path.child_eq_down, Kernel.trail_down, hq]
  refine List.mem_append_right _ ?_
  simp only [Option.map_some, Option.getD_some, Path.names_cons, trailFrom]
  exact List.mem_cons_self

/-- Where such a path leads through: the way in, and its place. -/
theorem Rooted.trail_cases (h : Rooted k V u p P) {x : Loc} (hx : x ∈ k.trail u p) :
    x ∈ k.way_in u p ∨ x = P := by
  obtain ⟨q, n, d, rfl, hq, rfl⟩ := h.spot
  have hone : ∀ s : List String, s ≠ [] → s <+: [n] → s = [n] := by
    intro s hs0 hs
    rcases List.prefix_concat_iff.mp (show s <+: [] ++ [n] from hs) with hs | hnil
    · exact hs
    · exact absurd (List.prefix_nil.mp hnil) hs0
  have hlink : ∀ s : List String, s ≠ [] → s <+: [n] → u.linkAt (d ++ s) = none := by
    intro s hs0 hs
    rw [hone s hs0 hs]
    exact h.link
  rw [Path.child_eq_down] at hx
  rcases mem_trail_down hq hlink hx with hx | ⟨s, hs0, hs, rfl⟩
  · exact .inl (mem_way_in.mpr hx)
  · exact .inr (by rw [hone s hs0 hs])

/-! ## Looking -/

theorem start_same (h : Same V u v) (hp : Seen k V u p) :
    v.get (k.start p) = some .dir ↔ u.get (k.start p) = some .dir := by rw [h _ hp.start]

theorem stat_same (h : Same V u v) (hp : Seen k V u p) : k.stat v p = k.stat u p := by
  unfold stat
  exact if_congr (start_same h hp) (follow_same (start_same h hp) fun x hx =>
    h x (hp.way x hx)).1 rfl

/-- What a path leads to is the same, wherever that is. -/
theorem get_same (h : Same V u v) (hp : Seen k V u p) {l : Loc} (hs : k.stat u p = some l) :
    v.get l = u.get l := by
  obtain ⟨e, he, hsym⟩ := stat_spec hs
  cases e with
  | symlink tgt => exact absurd rfl (hsym tgt)
  | file a => exact h l (hp.way l (stat_mem_trail hs he))
  | dir =>
      rw [he]
      refine (stat_trail hs (fun hd => ?_) fun x hx _ => h x (hp.way x hx)).2 he
      rw [h _ hp.start, hd]

theorem why_same (h : Same V u v) (hp : Seen k V u p) : k.why v p = k.why u p := by
  unfold why
  exact if_congr (start_same h hp) (FileTree.why_same (start_same h hp) fun x hx =>
    h x (hp.way x hx)) rfl

theorem unnamed_same (h : Same V u v) (hp : Seen k V u p) (e : Errno) :
    k.unnamed v p e = k.unnamed u p e := by
  rw [unnamed, unnamed, stat_same h hp, why_same h hp]

theorem slot_same (h : Same V u v) (hp : Seen k V u p) : k.slot v p = k.slot u p := by
  unfold slot
  split
  · rename_i n hlast
    have hq : Seen k V u ⟨p.root, p.comps.dropLast⟩ := by
      rw [Path.eq_child_of_getLast hlast] at hp
      exact hp.parent
    rw [stat_same h hq]
    cases hs : k.stat u ⟨p.root, p.comps.dropLast⟩ with
    | none => rfl
    | some d => rw [Option.bind_some, Option.bind_some, get_same h hq hs]
  · rfl

/-- A path runs through its own slot. -/
theorem slot_mem_trail {d : Loc} {n : String} (hs : k.slot u p = some (d, n)) :
    d ++ [n] ∈ k.trail u p := by
  obtain ⟨q, rfl, hq, -⟩ := slot_spec hs
  rw [Path.child_eq_down, trail_down, locate_of_stat hq]
  refine List.mem_append_right _ ?_
  simp only [Option.map_some, Option.getD_some, Path.names_cons, trailFrom]
  exact List.mem_cons_self

theorem lstat_same (h : Same V u v) (hp : Seen k V u p) : k.lstat v p = k.lstat u p := by
  unfold lstat
  rw [slot_same h hp, stat_same h hp]
  split
  · cases hs : k.slot u p with
    | none => rfl
    | some s => exact h _ (hp.way _ (slot_mem_trail hs))
  · cases hs : k.stat u p with
    | none => rfl
    | some l => exact get_same h hp hs

theorem exists_same (h : Same V u v) (hp : Seen k V u p) : k.exists_ v p = k.exists_ u p := by
  unfold exists_
  rw [stat_same h hp]

theorem is_dir_same (h : Same V u v) (hp : Seen k V u p) : k.is_dir v p = k.is_dir u p := by
  unfold is_dir
  rw [stat_same h hp]
  cases hs : k.stat u p with
  | none => rfl
  | some l => simp only [get_same h hp hs]

theorem read_same (h : Same V u v) (hp : Seen k V u p) : k.read v p = k.read u p := by
  unfold read
  rw [stat_same h hp]
  cases hs : k.stat u p with
  | none => rfl
  | some l => simp only [get_same h hp hs]

theorem is_file_same (h : Same V u v) (hp : Seen k V u p) : k.is_file v p = k.is_file u p := by
  unfold is_file
  rw [read_same h hp]

theorem is_symlink_same (h : Same V u v) (hp : Seen k V u p) :
    k.is_symlink v p = k.is_symlink u p := by
  unfold is_symlink
  rw [lstat_same h hp]

/-! ## Calls that give the same answer -/

/-- The same error, or two trees that are the same on `V`. -/
inductive Alike (V : Loc → Prop) :
    Except Errno (FileTree α) → Except Errno (FileTree α) → Prop
  | error (e : Errno) : Alike V (.error e) (.error e)
  | ok {u v : FileTree α} (h : Same V u v) : Alike V (.ok u) (.ok v)

theorem mkdir_alike (h : Same V u v) (hp : Seen k V u p) :
    Alike V (k.mkdir u p) (k.mkdir v p) := by
  unfold mkdir
  rw [slot_same h hp, unnamed_same h hp]
  cases hs : k.slot u p with
  | none => exact .error _
  | some s =>
      obtain ⟨d, n⟩ := s
      obtain ⟨q, rfl, hq, hd⟩ := slot_spec hs
      have hd' : v.get d = some .dir := by rw [get_same h hp.parent hq, hd]
      have hn : v.get (d ++ [n]) = u.get (d ++ [n]) := h _ (hp.way _ (slot_mem_trail hs))
      dsimp only
      by_cases hfree : u.get (d ++ [n]) = none
      · rw [dif_pos ⟨hd, hfree⟩, dif_pos ⟨hd', hn.trans hfree⟩]
        exact .ok (put_same h)
      · rw [dif_neg fun hc => hfree hc.2, dif_neg fun hc => hfree (hn ▸ hc.2)]
        exact .error _

theorem create_dirs_alike (h : Same V u v) (hp : Seen k V u p) (i : Nat) :
    Same V (k.create_dirs u p i).1 (k.create_dirs v p i).1 ∧
      (k.create_dirs v p i).2 = (k.create_dirs u p i).2 := by
  induction i with
  | zero => exact ⟨h, rfl⟩
  | succ i ih =>
      have hq : Seen k V u ⟨p.root, p.comps.take (i + 1)⟩ := hp.upto (i + 1)
      have hq₁ : Seen k V (k.create_dirs u p i).1 ⟨p.root, p.comps.take (i + 1)⟩ :=
        (hq.congr fun x _ => (create_dirs_grows k u p i).linkAt x).2
      have hm := mkdir_alike h hq
      unfold create_dirs
      dsimp only
      generalize k.mkdir u ⟨p.root, p.comps.take (i + 1)⟩ = a at hm ⊢
      generalize k.mkdir v ⟨p.root, p.comps.take (i + 1)⟩ = b at hm ⊢
      cases hm with
      | ok hs => exact ⟨hs, rfl⟩
      | error e =>
          have hother : Same V u v ∧
              (if k.is_dir v ⟨p.root, p.comps.take (i + 1)⟩ = true then none else some e) =
                if k.is_dir u ⟨p.root, p.comps.take (i + 1)⟩ = true then none else some e :=
            ⟨h, by rw [is_dir_same h hq]⟩
          cases e with
          | enoent =>
              -- a directory is missing: the call goes on to the one above
              generalize k.create_dirs u p i = a at ih hq₁ ⊢
              generalize k.create_dirs v p i = b at ih ⊢
              obtain ⟨u₁, e₁⟩ := a
              obtain ⟨v₁, e₂⟩ := b
              obtain ⟨hsame, rfl⟩ := ih
              cases e₂ with
              | some e => exact ⟨hsame, rfl⟩
              | none =>
                  have hm := mkdir_alike hsame hq₁
                  dsimp only
                  generalize k.mkdir u₁ ⟨p.root, p.comps.take (i + 1)⟩ = a at hm ⊢
                  generalize k.mkdir v₁ ⟨p.root, p.comps.take (i + 1)⟩ = b at hm ⊢
                  cases hm with
                  | ok hs => exact ⟨hs, rfl⟩
                  | error e => exact ⟨hsame, by rw [is_dir_same hsame hq₁]⟩
          | _ => exact hother

theorem create_dir_all_alike (h : Same V u v) (hp : Seen k V u p) :
    Same V (k.create_dir_all u p).1 (k.create_dir_all v p).1 ∧
      (k.create_dir_all v p).2 = (k.create_dir_all u p).2 := create_dirs_alike h hp _

theorem remove_file_alike (h : Same V u v) (hp : Seen k V u p) :
    Alike V (k.remove_file u p) (k.remove_file v p) := by
  unfold remove_file
  rw [slot_same h hp, unnamed_same h hp]
  cases hs : k.slot u p with
  | none => exact .error _
  | some s =>
      obtain ⟨d, n⟩ := s
      have hn : v.get (d ++ [n]) = u.get (d ++ [n]) := h _ (hp.way _ (slot_mem_trail hs))
      dsimp only
      rw [hn]
      split
      · exact .error _
      · exact .error _
      · exact .ok (erase_same h)

theorem remove_dir_alike (h : Same V u v) (hp : Rooted k V u p P) :
    Alike V (k.remove_dir u p) (k.remove_dir v p) := by
  unfold remove_dir
  rw [slot_same h hp.seen, unnamed_same h hp.seen]
  cases hs : k.slot u p with
  | none => exact .error _
  | some s =>
      obtain ⟨d, n⟩ := s
      have hdn := (hp.slot hs).1
      have hn : v.get (d ++ [n]) = u.get (d ++ [n]) := h _ (hp.seen.way _ (slot_mem_trail hs))
      have hch : v.children (d ++ [n]) = [] ↔ u.children (d ++ [n]) = [] :=
        children_empty_same h fun m => by rw [hdn]; exact hp.below [m]
      dsimp only
      rw [hn]
      split
      · exact .error _
      · by_cases hc : u.children (d ++ [n]) = []
        · rw [if_pos hc, if_pos (hch.mpr hc)]
          exact .ok (erase_same h)
        · rw [if_neg hc, if_neg fun hv => hc (hch.mp hv)]
          exact .error _
      · exact .error _

theorem remove_dir_all_alike (h : Same V u v) (hp : Rooted k V u p P) :
    Same V (k.remove_dir_all u p).1 (k.remove_dir_all v p).1 ∧
      (k.remove_dir_all v p).2 = (k.remove_dir_all u p).2 := by
  unfold remove_dir_all
  rw [slot_same h hp.seen, stat_same h hp.seen, why_same h hp.seen]
  cases hs : k.slot u p with
  | some s =>
      obtain ⟨d, n⟩ := s
      have hn : v.get (d ++ [n]) = u.get (d ++ [n]) := h _ (hp.seen.way _ (slot_mem_trail hs))
      dsimp only
      rw [hn]
      split
      · exact ⟨h, rfl⟩
      · exact ⟨h, rfl⟩
      · refine ⟨?_, rfl⟩
        dsimp only
        exact erase_same h
  | none =>
      cases hst : k.stat u p with
      | none => exact ⟨h, rfl⟩
      | some l =>
          obtain ⟨d, n, hslot⟩ := hp.slot_of_stat hst
          rw [hs] at hslot
          cases hslot

/-- What is in a directory goes, in whatever order it is read. -/
theorem eraseAll_children_same (h : Same V u v) {l : Loc} (hl : ∀ r, V (l ++ r)) :
    Same V (u.eraseAll ((u.children l).map fun n => l ++ [n]))
      (v.eraseAll ((v.children l).map fun n => l ++ [n])) := by
  have hchild : ∀ y, y ∈ (v.children l).map (fun n => l ++ [n]) ↔
      y ∈ (u.children l).map (fun n => l ++ [n]) := by
    intro y
    simp only [List.mem_map]
    refine exists_congr fun n => and_congr_left fun _ => ?_
    rw [mem_children, mem_children, h _ (hl [n])]
  intro x hx
  rw [get_eraseAll_eq, get_eraseAll_eq, h x hx]
  exact if_congr (exists_congr fun y => and_congr_left fun _ => hchild y) rfl rfl

theorem remove_dir_all_dotted_alike (h : Same V u v) (hp : Rooted k V u p P) :
    Same V (k.remove_dir_all u p.dotted).1 (k.remove_dir_all v p.dotted).1 := by
  have hseen := hp.seen.tailed .dot
  rw [Path.tailed_of_ne (by simp)] at hseen
  unfold remove_dir_all
  rw [slot_dotted, slot_dotted, stat_same h hseen]
  cases hs : k.stat u p.dotted with
  | none => exact h
  | some l =>
      obtain ⟨hst, hd⟩ := stat_dotted_eq_some.mp hs
      obtain rfl := hp.stat hst
      have hd' : v.get l = some .dir := by rw [get_same h hp.seen hst, hd]
      dsimp only
      rw [if_pos hd, if_pos hd']
      exact eraseAll_children_same h hp.below

theorem rename_alike (h : Same V u v) (hp : Rooted k V u p P) (hq : Rooted k V u q Q) :
    Alike V (k.rename u p q) (k.rename v p q) := by
  have herr : k.renameUnnamed v p q = k.renameUnnamed u p q := by
    rw [renameUnnamed, renameUnnamed, slot_same h hp.seen, slot_same h hq.seen,
      stat_same h hp.seen, stat_same h hq.seen, why_same h hp.seen, why_same h hq.seen]
  unfold rename
  rw [slot_same h hp.seen, slot_same h hq.seen, herr]
  cases hs : k.slot u p with
  | none => exact .error _
  | some s =>
      cases hs' : k.slot u q with
      | none => exact .error _
      | some s' =>
          obtain ⟨d, n⟩ := s
          obtain ⟨d', n'⟩ := s'
          have hn : v.get (d ++ [n]) = u.get (d ++ [n]) := h _ (hp.seen.way _ (slot_mem_trail hs))
          have hn' : v.get (d' ++ [n']) = u.get (d' ++ [n']) :=
            h _ (hq.seen.way _ (slot_mem_trail hs'))
          have hdn := (hp.slot hs).1
          obtain ⟨hdn', hd'⟩ := hq.slot hs'
          have hvd' : v.get d' = some .dir := by
            obtain ⟨x, rfl, hx, -⟩ := slot_spec hs'
            rw [get_same h hq.seen.parent hx, hd']
          have hch : v.children (d' ++ [n']) = [] ↔ u.children (d' ++ [n']) = [] :=
            children_empty_same h fun m => by rw [hdn']; exact hq.below [m]
          -- the call looks at the two entries and at whether the destination has any, all on
          -- ground both trees agree on
          have hcheck : renameCheck v (d ++ [n]) (d' ++ [n'])
              = renameCheck u (d ++ [n]) (d' ++ [n']) := by
            unfold renameCheck kindCheck
            rw [hn, hn']
            simp only [hch]
          dsimp only
          rw [hn, hcheck]
          split
          · exact .error _
          · split
            · exact .ok h
            · split
              · exact .error _
              · by_cases hin : d ++ [n] <+: d'
                · rw [dif_neg fun hc => hc.2 hin, dif_neg fun hc => hc.2 hin]
                  exact .error _
                · rw [dif_pos ⟨hd', hin⟩, dif_pos ⟨hvd', hin⟩]
                  exact .ok (graft_same h fun r => by rw [hdn]; exact hp.below r)

/-! ## Calls that stay where they belong -/

theorem mkdir_within (hp : ∀ x ∈ k.trail u p, u.get x = none → W x)
    (h : k.mkdir u p = .ok u') : Within W u u' := by
  unfold mkdir at h
  split at h
  · rename_i d n hs
    split at h
    · rename_i hc
      cases h
      exact put_within (hp _ (slot_mem_trail hs) hc.2) (linkAt_of_none hc.2) (by simp)
    · cases h
  · cases h

/-- What `create_dir_all` makes was missing on the way. -/
theorem create_dirs_within (hp : ∀ x ∈ k.trail u p, u.get x = none → W x) (i : Nat) :
    Within W u (k.create_dirs u p i).1 := by
  induction i with
  | zero => exact Within.refl W u
  | succ i ih =>
      have hgrows : Grows u (k.create_dirs u p i).1 := create_dirs_grows k u p i
      unfold create_dirs
      dsimp only
      split
      · rename_i hm
        exact mkdir_within (fun x hx hn => hp x (trail_upto (i + 1) hx) hn) hm
      · split
        · rename_i hc
          rw [hc] at ih
          exact ih
        · rename_i u₁ hc
          rw [hc] at ih hgrows
          split
          · rename_i hm
            refine ih.trans (mkdir_within (fun x hx hn => ?_) hm)
            -- no link has come or gone, and what is missing now was missing
            rw [(locate_trail fun y _ => hgrows.linkAt y).2] at hx
            refine hp x (trail_upto (i + 1) hx) ?_
            by_contra hne
            obtain ⟨e, he⟩ := Option.ne_none_iff_exists'.mp hne
            rw [hgrows.extends x e he] at hn
            cases hn
          · exact ih
      · exact Within.refl W u

theorem create_dir_all_within (hp : ∀ x ∈ k.trail u p, u.get x = none → W x) :
    Within W u (k.create_dir_all u p).1 := create_dirs_within hp _

theorem remove_file_within (hp : Rooted k V u p P) (hw : ∀ r, W (P ++ r))
    (h : k.remove_file u p = .ok u') : Within W u u' := by
  unfold remove_file at h
  split at h
  · cases h
  · rename_i d n hs
    obtain ⟨rfl, -⟩ := hp.slot hs
    split at h
    · cases h
    · cases h
    · cases h
      exact erase_within hw hp.plain

theorem remove_dir_within (hp : Rooted k V u p P) (hw : ∀ r, W (P ++ r))
    (h : k.remove_dir u p = .ok u') : Within W u u' := by
  unfold remove_dir at h
  split at h
  · cases h
  · rename_i d n hs
    obtain ⟨rfl, -⟩ := hp.slot hs
    split at h
    · cases h
    · split at h
      · cases h
        exact erase_within hw hp.plain
      · cases h
    · cases h

theorem remove_dir_all_within (hp : Rooted k V u p P) (hw : ∀ r, W (P ++ r)) :
    Within W u (k.remove_dir_all u p).1 := by
  unfold remove_dir_all
  split
  · rename_i d n hs
    obtain ⟨rfl, -⟩ := hp.slot hs
    split
    · exact Within.refl W u
    · exact Within.refl W u
    · dsimp only
      exact erase_within hw hp.plain
  · rename_i hs
    split
    · exact Within.refl W u
    · rename_i l hst
      obtain ⟨d, n, hslot⟩ := hp.slot_of_stat hst
      rw [hs] at hslot
      cases hslot

theorem remove_dir_all_dotted_within (hp : Rooted k V u p P) (hw : ∀ r, W (P ++ r)) :
    Within W u (k.remove_dir_all u p.dotted).1 := by
  unfold remove_dir_all
  rw [slot_dotted]
  cases hs : k.stat u p.dotted with
  | none => exact Within.refl W u
  | some l =>
      obtain ⟨hst, hd⟩ := stat_dotted_eq_some.mp hs
      obtain rfl := hp.stat hst
      dsimp only
      rw [if_pos hd]
      refine eraseAll_within hw hp.plain fun y hy => ?_
      obtain ⟨n, -, rfl⟩ := List.mem_map.mp hy
      exact List.prefix_append _ _

theorem rename_within (hp : Rooted k V u p P) (hq : Rooted k V u q Q) (hwp : ∀ r, W (P ++ r))
    (hwq : ∀ r, W (Q ++ r)) (h : k.rename u p q = .ok u') : Within W u u' := by
  unfold rename at h
  split at h
  · rename_i d n d' n' hs hs'
    obtain ⟨rfl, -⟩ := hp.slot hs
    obtain ⟨rfl, -⟩ := hq.slot hs'
    split at h
    · cases h
    · split at h
      · cases h
        exact Within.refl W u
      · split at h
        · cases h
        · split at h
          · cases h
            exact graft_within hwp hwq hp.plain hq.plain
          · cases h
  · cases h

end Kernel

/-! ## Directories and links that stay -/

namespace FileTree

/-- Every directory and every link of `t` is in `u`. -/
def Firm (t u : FileTree α) : Prop :=
  ∀ l, t.get l = some .dir ∨ t.linkAt l ≠ none → u.get l = t.get l

variable {t u v : FileTree α}

theorem Firm.refl (t : FileTree α) : Firm t t := fun _ _ => rfl

theorem Firm.trans (h : Firm t u) (h' : Firm u v) : Firm t v := by
  intro l hl
  have hu := h l hl
  rw [← hu]
  apply h'
  rw [hu, linkAt_of_get_eq hu]
  exact hl

theorem Grows.firm (h : Grows t u) : Firm t u := by
  intro l hl
  rcases h l with he | ⟨hnone, -⟩
  · exact he
  · -- nothing is neither a directory nor a link
    rw [hnone, linkAt_of_none hnone] at hl
    simp at hl

theorem Firm.keepsDirs (h : Firm t u) (j : Nat) : KeepsDirs j t u := by
  intro d n hlead
  apply h
  by_cases hl : t.linkAt (d ++ [n]) = none
  · exact .inl (dir_of_leads hlead hl)
  · exact .inr hl

end FileTree

end WebDavs.Posix
