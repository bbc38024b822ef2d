/-
A tree that goes over in one rename.

What lay at and below the source lies at and below the destination then, and everything
else where it was. A listed path that runs through directories alone leads, from the
destination, to the same thing in its new place; one that runs through links does so as
long as the links lead where they led. `Movable` says that they do, and that the
destination is not itself reached through what goes.
-/
import WebDavs.Transfer

set_option autoImplicit false

namespace WebDavs.Mover

open WebDavs.Posix WebDavs.Posix.FileTree

/-- Where what was at `x` is when the entry at `a` has become the one at `b`. -/
def relocated (a b x : Loc) : Loc := if a <+: x then b ++ x.drop a.length else x

/-- When a rename of `src` to `dst` that turns `t` into `u` takes the listed tree over:
the way to `dst` does not lead through `src`, and a link by which the walk came to a
directory leads from its new place to where that directory is then. -/
structure Movable (k : Kernel) (t u : FileTree Bytes) (src dst : Path) (l : Listing) : Prop where
  start : ∀ a, k.entry_at t src = some a → ¬ a <+: k.start dst
  way : ∀ a, k.entry_at t src = some a → ∀ v ∈ k.way_in t dst, ¬ a <+: v
  links : ∀ a b, k.entry_at t src = some a → k.entry_at t dst = some b →
    ∀ rel ∈ l.dirs, ∀ d n tgt x, k.slot t (src.down rel) = some (d, n) →
      t.get (d ++ [n]) = some (.symlink tgt) → k.stat t (src.down rel) = some x →
        u.viaLink k.links (relocated a b (d ++ [n])).dropLast tgt = some (relocated a b x)

/-- In `u` the entry that `src` names in `t` is the one `dst` names, where there was nothing
but at most a link that leads to no directory. -/
structure Taken (k : Kernel) (t u : FileTree Bytes) (src dst : Path) (d : Loc) (n : String)
    (d' : Loc) (n' : String) : Prop where
  slot : k.slot t src = some (d, n)
  slot' : k.slot t dst = some (d', n')
  ne : d ++ [n] ≠ d' ++ [n']
  out : ¬ d ++ [n] <+: d'
  get : ∀ x, u.get x =
    if d' ++ [n'] <+: x then t.get (d ++ [n] ++ x.drop (d' ++ [n']).length)
    else if d ++ [n] <+: x then none else t.get x
  free : k.is_dir t dst = false
  link : ∀ e, t.get (d' ++ [n']) = some e → ∃ tgt, e = .symlink tgt

section

variable {k : Kernel} {t u : FileTree Bytes} {src dst : Path} {d d' : Loc} {n n' : String}
variable {l : Listing}

/-- A tree without links goes over. -/
theorem Movable.of_plain (hs : ∀ a, k.entry_at t src = some a → ¬ a <+: k.start dst)
    (hw : ∀ a, k.entry_at t src = some a → ∀ v ∈ k.way_in t dst, ¬ a <+: v)
    (hno : ∀ rel d n, k.slot t (src.down rel) = some (d, n) → t.linkAt (d ++ [n]) = none) :
    Movable k t u src dst l := by
  refine ⟨hs, hw, fun a b _ _ rel _ d n tgt x hslot hget => ?_⟩
  have := hno rel d n hslot
  rw [linkAt_eq_some.mpr hget] at this
  cases this

theorem relocated_below (a b r : Loc) : relocated a b (a ++ r) = b ++ r := by
  rw [relocated, if_pos (List.prefix_append a r), List.drop_left]

theorem relocated_self (a b : Loc) : relocated a b a = b := by
  simpa using relocated_below a b []

theorem relocated_of_out {a b x : Loc} (h : ¬ a <+: x) : relocated a b x = x := if_neg h

/-- What is in a directory goes where the directory goes, but for the entry itself. -/
theorem relocated_child {a b y : Loc} {m : String} (h : y ++ [m] ≠ a) :
    relocated a b (y ++ [m]) = relocated a b y ++ [m] := by
  by_cases hy : a <+: y
  · obtain ⟨r, rfl⟩ := hy
    rw [List.append_assoc, relocated_below, relocated_below, List.append_assoc]
  · have hym : ¬ a <+: y ++ [m] := by
      intro hp
      rcases List.prefix_concat_iff.mp hp with he | hp
      · exact h he.symm
      · exact hy hp
    rw [relocated_of_out hy, relocated_of_out hym]

/-- What is there and was not in the way is there, in its new place. -/
theorem Taken.get_relocated (h : Taken k t u src dst d n d' n') {x : Loc} {e : Entry Bytes}
    (he : t.get x = some e) (hx : ¬ d' ++ [n'] <+: x) :
    u.get (relocated (d ++ [n]) (d' ++ [n']) x) = some e := by
  by_cases hp : d ++ [n] <+: x
  · obtain ⟨r, rfl⟩ := hp
    rw [relocated_below, h.get, if_pos (List.prefix_append _ _), List.drop_left, he]
  · rw [relocated_of_out hp, h.get, if_neg hx, if_neg hp, he]

/-- Only a link may have been in the way. -/
theorem Taken.not_in_way (h : Taken k t u src dst d n d' n') {x : Loc} {e : Entry Bytes}
    (he : t.get x = some e) (hs : ∀ tgt, e ≠ .symlink tgt) : ¬ d' ++ [n'] <+: x := by
  rintro ⟨r, rfl⟩
  by_cases hr : r = []
  · rw [hr, List.append_nil] at he
    obtain ⟨tgt, rfl⟩ := h.link e he
    exact hs tgt rfl
  · obtain ⟨tgt, htgt⟩ := h.link _ (t.get_above hr he)
    cases htgt

/-- What leads to a directory was not in the way either. -/
theorem Taken.leads_not_in_way (h : Taken k t u src dst d n d' n') {y : Loc} {m : String}
    (hl : t.LeadsToDir k.links y m) (hne : t.get (y ++ [m]) ≠ none) :
    ¬ d' ++ [n'] <+: y ++ [m] := by
  obtain ⟨e, he⟩ := Option.ne_none_iff_exists'.mp hne
  intro hpre
  rcases List.prefix_concat_iff.mp hpre with heq | hpre
  · -- the two are one entry
    obtain ⟨rfl, hm⟩ := List.append_inj' heq rfl
    obtain rfl := List.singleton_inj.mp hm
    have hfree := h.free
    rw [Kernel.is_dir_of_leads h.slot' hl] at hfree
    cases hfree
  · exact h.not_in_way (t.get_parent he) (by simp) hpre

/-- The parent of the destination is where it was. -/
theorem Taken.parent (h : Taken k t u src dst d n d' n') (hM : Movable k t u src dst l) :
    ∃ q, dst = q.child n' ∧ k.stat u q = some d' := by
  obtain ⟨q, hq, hst, hd'⟩ := Kernel.slot_spec h.slot'
  have hent := Kernel.entry_at_of_slot h.slot
  refine ⟨q, hq, (Kernel.stat_trail hst (fun hs => ?_) fun v hv hne => ?_).1⟩
  · have hout := hM.start _ hent
    rw [hq, Kernel.start_child] at hout
    rw [h.get, if_neg (h.not_in_way hs (by simp)), if_neg hout, hs]
  · -- a path to a directory runs through directories and links to directories
    obtain ⟨y, m, rfl, hleads⟩ := Kernel.trail_leads hst hd' hv
    have hout : ¬ d ++ [n] <+: y ++ [m] := by
      refine hM.way _ hent _ ?_
      rw [hq]
      exact Kernel.mem_way_in.mpr hv
    rw [h.get, if_neg (h.leads_not_in_way hleads hne), if_neg hout]

/-- The walk does not come back to the entry it began with. -/
theorem Taken.not_again (h : Taken k t u src dst d n d' n') (hl : IsListing k t src l)
    (hd : k.is_dir t src = true) {r : List String} {y : Loc} {m : String}
    (hs : k.stat t (src.down r) = some y) : y ++ [m] ≠ d ++ [n] := by
  intro heq
  obtain ⟨rfl, hm⟩ := List.append_inj' heq rfl
  obtain rfl := List.singleton_inj.mp hm
  obtain ⟨q, hq, hst, -⟩ := Kernel.slot_spec h.slot
  have hback : k.stat t (src.down (r ++ [m])) = k.stat t src := by
    rw [← Path.down_child, Kernel.stat_child, hs, hq, Kernel.stat_child, hst]
  have := hl.no_return hd hback
  simp at this

/-- **A listed directory has gone over**: its target leads to where it is now. -/
theorem Taken.dir (h : Taken k t u src dst d n d' n') (hl : IsListing k t src l)
    (hM : Movable k t u src dst l) {rel : List String} (hrel : rel ∈ l.dirs) :
    ∃ x, k.stat t (src.down rel) = some x ∧ t.get x = some .dir ∧
      k.stat u (dst.down rel) = some (relocated (d ++ [n]) (d' ++ [n']) x) := by
  obtain ⟨q', hq', hst'⟩ := h.parent hM
  have hlinks := hM.links _ _ (Kernel.entry_at_of_slot h.slot) (Kernel.entry_at_of_slot h.slot')
  obtain ⟨x, hx, hxd⟩ := Kernel.is_dir_iff.mp (hl.dir hrel)
  refine ⟨x, hx, hxd, ?_⟩
  induction rel using List.reverseRecOn generalizing x with
  | nil =>
      obtain ⟨q, hq, hst, -⟩ := Kernel.slot_spec h.slot
      have hslot : k.slot t (src.down []) = some (d, n) := by rw [Path.down_nil, h.slot]
      rw [Path.down_nil, hq']
      -- what goes over is the directory, or a link to it
      cases he : t.get (d ++ [n]) with
      | none =>
          rw [Path.down_nil, hq, Kernel.stat_child, hst, Option.bind_some, walk_normal, he] at hx
          cases hx
      | some e =>
          have hu : u.get (d' ++ [n']) = some e := by
            rw [h.get, if_pos List.prefix_rfl, List.drop_length, List.append_nil, he]
          cases e with
          | file bs =>
              rw [Path.down_nil, hq, Kernel.stat_child_of_get hst he (by simp)] at hx
              cases hx
              rw [he] at hxd
              cases hxd
          | dir =>
              rw [Path.down_nil, hq, Kernel.stat_child_of_get hst he (by simp)] at hx
              cases hx
              rw [relocated_self]
              exact Kernel.stat_child_of_get hst' hu (by simp)
          | symlink tgt =>
              have := hlinks [] hrel d n tgt x hslot he hx
              rw [relocated_self, List.dropLast_concat] at this
              rw [Kernel.stat_child, hst', Option.bind_some, walk_normal, hu]
              simp only [this, Option.bind_some, walk_nil]
  | append_singleton r m ih =>
      have hr : r ∈ l.dirs := hl.parent (List.mem_append_right _ hrel)
      obtain ⟨y, hy, hyd⟩ := Kernel.is_dir_iff.mp (hl.dir hr)
      have hyu := ih hr y hy hyd
      have hsrc := Kernel.is_dir_of_down (hl.dir hr)
      have hchild := relocated_child (b := d' ++ [n']) (h.not_again hl hsrc (m := m) hy)
      have hstat := hx
      rw [← Path.down_child, Kernel.stat_child, hy, Option.bind_some] at hstat
      rw [← Path.down_child, Kernel.stat_child, hyu, Option.bind_some]
      cases he : t.get (y ++ [m]) with
      | none =>
          rw [walk_normal, he] at hstat
          cases hstat
      | some e =>
          have hleads : t.LeadsToDir k.links y m := ⟨x, hstat, hxd⟩
          have hu := h.get_relocated he (h.leads_not_in_way hleads (by rw [he]; simp))
          rw [hchild] at hu
          cases e with
          | file bs =>
              rw [walk_single he (by simp)] at hstat
              cases hstat
              rw [he] at hxd
              cases hxd
          | dir =>
              rw [walk_single he (by simp)] at hstat
              cases hstat
              rw [walk_single hu (by simp), hchild]
          | symlink tgt =>
              have hslot : k.slot t (src.down (r ++ [m])) = some (y, m) := by
                rw [← Path.down_child]
                exact Kernel.slot_child_eq_some.mpr ⟨hy, hyd, rfl⟩
              have := hlinks _ hrel y m tgt x hslot he hx
              rw [hchild, List.dropLast_concat] at this
              rw [walk_normal, hu]
              simp only [this, Option.bind_some, walk_nil]

/-- **A listed file has gone over**, if it is a regular one. -/
theorem Taken.file (h : Taken k t u src dst d n d' n') (hl : IsListing k t src l)
    (hM : Movable k t u src dst l) {f : Path × List String} (hf : f ∈ l.files) {bs : Bytes}
    (hb : k.lstat t f.1 = some (.file bs)) : k.read u (dst.down f.2) = some bs := by
  obtain ⟨q', hq', hst'⟩ := h.parent hM
  obtain ⟨sf, rel⟩ := f
  obtain ⟨rfl, -⟩ := hl.file hf
  rcases List.eq_nil_or_concat rel with rfl | ⟨r, m, rfl⟩
  · rw [Path.down_nil, Kernel.lstat_eq, Kernel.entry_at_of_slot h.slot, Option.bind_some] at hb
    have hu : u.get (d' ++ [n']) = some (.file bs) := by
      rw [h.get, if_pos List.prefix_rfl, List.drop_length, List.append_nil, hb]
    rw [Path.down_nil, hq']
    exact Kernel.read_eq_some.mpr ⟨_, Kernel.stat_child_of_get hst' hu (by simp), hu⟩
  · rw [List.concat_eq_append] at hf hb ⊢
    have hr : r ∈ l.dirs :=
      hl.parent (List.mem_append_left _ (List.mem_map.mpr ⟨_, hf, rfl⟩))
    obtain ⟨y, hy, hyd, hyu⟩ := h.dir hl hM hr
    have hslot : k.slot t ((src.down r).child m) = some (y, m) :=
      Kernel.slot_child_eq_some.mpr ⟨hy, hyd, rfl⟩
    rw [← Path.down_child, Kernel.lstat_child, hslot, Option.bind_some] at hb
    have hsrc := Kernel.is_dir_of_down (hl.dir hr)
    have hu := h.get_relocated hb (h.not_in_way hb (by simp))
    rw [relocated_child (h.not_again hl hsrc hy)] at hu
    rw [← Path.down_child]
    exact Kernel.read_eq_some.mpr ⟨_, Kernel.stat_child_of_get hyu hu (by simp), hu⟩

end

end WebDavs.Mover
