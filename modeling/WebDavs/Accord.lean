/-
A request with a password and one without leave the same tree.

Without a password a job does the work, with a walk, a crew of workers and any
order of their calls. With one the helper does it: one rename, or `copy_recursive`
followed by `remove_recursive`. Where nothing gets in the way of itself
(`Vacant`) both leave the tree of `Carried`.

`copy_recursive` takes a tree name by name; `Spread` says how far it has come in
one directory.

A deletion is a job, or one `remove_dir_all` of the helper. The job goes through
links to directories and the helper does not; where there is no such link
(`Deletable`) the two agree as well.
-/
import WebDavs.Carry
import WebDavs.DeleteExact
import WebDavs.Elevated

set_option autoImplicit false

namespace WebDavs.Sudo

open WebDavs.Posix WebDavs.Posix.FileTree WebDavs.Mover WebDavs.Steps

/-- `w` is `u` with the directory `S` begun at `D`, the names in `done` having been
copied. -/
def Spread (S D : Loc) (u w : FileTree Bytes) (done : List String) : Prop :=
  ∀ x, w.get x = if x = D ∨ ∃ c ∈ done, D ++ [c] <+: x then u.get (S ++ x.drop D.length)
    else u.get x

section

variable {k : Kernel} {t u w : FileTree Bytes} {p q : Path} {d d' : Loc} {n n' : String}
variable {fuel : Nat} {fs : List Fault}

theorem now_none (h : ∀ f ∈ fs, f = .none) : now fs = .none := by
  cases fs with
  | nil => rfl
  | cons f fs => exact h f (List.mem_cons_self ..)

theorem tail_none (h : ∀ f ∈ fs, f = .none) : ∀ f ∈ fs.tail, f = .none :=
  fun f hf => h f (List.mem_of_mem_tail hf)

/-! ## One directory -/

section

variable {S D : Loc} {done : List String}

/-- Where nothing was nothing is lost. -/
theorem Spread.extends (h : Spread S D u w done) (hD : u.get D = none) : Extends u w := by
  intro x e he
  rw [h x, if_neg, he]
  have hno : ¬ D <+: x := fun hp => by
    rw [u.get_none_of_prefix hp hD] at he
    cases he
  rintro (rfl | ⟨c, -, hc⟩)
  · exact hno List.prefix_rfl
  · exact hno ((List.prefix_append D [c]).trans hc)

/-- What is not below `D` is as it was. -/
theorem Spread.off (h : Spread S D u w done) {x : Loc} (hx : ¬ D <+: x) : w.get x = u.get x := by
  rw [h x, if_neg]
  rintro (rfl | ⟨c, -, hc⟩)
  · exact hx List.prefix_rfl
  · exact hx ((List.prefix_append D [c]).trans hc)

/-- A name that has not been copied is still free. -/
theorem Spread.free (h : Spread S D u w done) (hD : u.get D = none) {c : String} (hc : c ∉ done) :
    w.get (D ++ [c]) = none := by
  rw [h, if_neg, u.get_none_of_prefix (List.prefix_append D [c]) hD]
  rintro (heq | ⟨c', hc', hp⟩)
  · simp at heq
  · have hcc : [c'] <+: [c] := (List.prefix_append_right_inj D).mp hp
    rw [List.cons_prefix_cons] at hcc
    exact hc (hcc.1 ▸ hc')

/-- The copy of one more name. -/
theorem Spread.next {w' : FileTree Bytes} {c : String} (h : Spread S D u w done)
    (hSD : ∀ r, ¬ D <+: S ++ r)
    (hw : Carried .copy w (S ++ [c]) (D ++ [c]) w') : Spread S D u w' (done ++ [c]) := by
  intro x
  rw [hw x]
  by_cases hx : D ++ [c] <+: x
  · obtain ⟨z, rfl⟩ := hx
    rw [if_pos (List.prefix_append _ _), List.drop_left, List.append_assoc, h.off (hSD _),
      if_pos (.inr ⟨c, by simp, by simp⟩), List.append_assoc, List.drop_left]
  · rw [if_neg hx, if_neg (by simp), h x]
    congr 1
    simp only [List.mem_append, List.mem_singleton, eq_iff_iff]
    constructor
    · rintro (heq | ⟨c', hc', hp⟩)
      · exact .inl heq
      · exact .inr ⟨c', .inl hc', hp⟩
    · rintro (heq | ⟨c', hc' | rfl, hp⟩)
      · exact .inl heq
      · exact .inr ⟨c', hc', hp⟩
      · exact absurd hp hx

/-- Once all names have been copied the whole of the directory has. -/
theorem Spread.whole (h : Spread S D u w done) (hD : u.get D = none)
    (hdone : ∀ c, c ∉ done → u.get (S ++ [c]) = none) : Carried .copy u S D w := by
  intro x
  by_cases hx : D <+: x
  · rw [if_pos hx, h x]
    split
    · rfl
    · rename_i hno
      obtain ⟨r, rfl⟩ := hx
      rw [List.drop_left, u.get_none_of_prefix (List.prefix_append _ _) hD]
      cases r with
      | nil => exact absurd (.inl (List.append_nil D)) hno
      | cons c z =>
          have hc : c ∉ done := fun hm => hno (.inr ⟨c, hm, by simp⟩)
          have hpre : S ++ [c] <+: S ++ c :: z := by simp
          rw [u.get_none_of_prefix hpre (hdone c hc)]
  · rw [if_neg hx, if_neg (by simp), h.off hx]

end

/-- The copying of one name, from a state in which some have been copied. -/
theorem Spread.vacant {done : List String} {c : String}
    (hv : Vacant k u p q d n d' n') (hdir : u.get (d ++ [n]) = some .dir)
    (h : Spread (d ++ [n]) (d' ++ [n']) u w done) (hc : u.get (d ++ [n] ++ [c]) ≠ none)
    (hnew : c ∉ done) :
    Vacant k w (p.child c) (q.child c) (d ++ [n]) c (d' ++ [n']) c := by
  have hx := h.extends hv.absent
  have hsrc : ∀ r, w.get (d ++ [n] ++ r) = u.get (d ++ [n] ++ r) := fun r =>
    h.off fun ⟨z, hz⟩ => hv.apart.incomparable r z hz.symm
  have hD : w.get (d' ++ [n']) = some .dir := by
    rw [h, if_pos (.inl rfl)]
    simpa using hdir
  obtain ⟨a, rfl, ha, -⟩ := Kernel.slot_spec hv.src_slot
  obtain ⟨b, rfl, hb, -⟩ := Kernel.slot_spec hv.dst_slot
  refine ⟨?_, ?_, ?_, h.free hv.absent hnew, ?_, fun r => ?_⟩
  · refine Kernel.slot_child_eq_some.mpr ⟨?_, hx _ _ hdir, rfl⟩
    exact Kernel.stat_child_of_get (Kernel.stat_extends hx ha) (hx _ _ hdir) (by simp)
  · rw [hsrc]
    exact hc
  · refine Kernel.slot_child_eq_some.mpr ⟨?_, hD, rfl⟩
    exact Kernel.stat_child_of_get (Kernel.stat_extends hx hb) hD (by simp)
  · rintro ⟨z, hz⟩
    rw [List.append_assoc] at hz
    exact hv.apart.incomparable ([c] ++ z) [] (by rw [List.append_nil]; exact hz)
  · rw [List.append_assoc, linkAt_of_get_eq (hsrc _), hv.linkless]

/-- The loop over the names of a directory, each of which is copied like this. -/
theorem copy_each_spread (copy : String → FileTree Bytes → List Fault → Option Outcome)
    {names done : List String} {gs : List Fault} (hv : Vacant k u p q d n d' n')
      (hdir : u.get (d ++ [n]) = some .dir)
    (hcopy : ∀ (c : String) (w : FileTree Bytes) (gs : List Fault),
      Vacant k w (p.child c) (q.child c) (d ++ [n]) c (d' ++ [n']) c →
      (∀ r, w.get (d ++ [n] ++ [c] ++ r) = u.get (d ++ [n] ++ ([c] ++ r))) →
      (∀ f ∈ gs, f = .none) → ∃ w' gs', copy c w gs = some (w', gs', .ok ()) ∧
        (∀ f ∈ gs', f = .none) ∧ Carried .copy w (d ++ [n] ++ [c]) (d' ++ [n'] ++ [c]) w')
    (hnd : (done ++ names).Nodup)
    (hmem : ∀ c ∈ names, u.get (d ++ [n] ++ [c]) ≠ none) (hgs : ∀ f ∈ gs, f = .none)
    (hw : Spread (d ++ [n]) (d' ++ [n']) u w done) :
    ∃ w' gs', copy_each copy names w gs = some (w', gs', .ok ()) ∧ (∀ f ∈ gs', f = .none) ∧
      Spread (d ++ [n]) (d' ++ [n']) u w' (done ++ names) := by
  induction names generalizing done w gs with
  | nil => exact ⟨w, gs, rfl, hgs, by rwa [List.append_nil]⟩
  | cons c names ih =>
      have hnew : c ∉ done := fun hd => (List.disjoint_of_nodup_append hnd) hd (by simp)
      have hoff : ∀ r, ¬ d' ++ [n'] <+: d ++ [n] ++ r := fun r ⟨z, hz⟩ =>
        hv.apart.incomparable r z hz.symm
      obtain ⟨w₁, gs₁, hc, hgs₁, hcar⟩ := hcopy c w gs.tail
        (hw.vacant hv hdir (hmem c (by simp)) hnew)
        (fun r => by rw [List.append_assoc, hw.off (hoff _)]) (tail_none hgs)
      have hnd' : ((done ++ [c]) ++ names).Nodup := by rwa [List.append_assoc]
      obtain ⟨w', gs', hrest, hgs', hw'⟩ := ih hnd'
        (fun x hx => hmem x (List.mem_cons_of_mem _ hx)) hgs₁ (hw.next hoff hcar)
      refine ⟨w', gs', ?_, hgs', by rwa [List.append_assoc] at hw'⟩
      simp only [copy_each, now_none hgs, Fault.errno, hc, hrest]

/-! ## The whole tree -/

/-- The directory of the copy, as it is made. -/
theorem spread_start (hv : Vacant k u p q d n d' n') (hdir : u.get (d ++ [n]) = some .dir) :
    ∃ u₁, create_dir_all k u q .none = (u₁, none) ∧ Spread (d ++ [n]) (d' ++ [n']) u u₁ [] := by
  obtain ⟨b, rfl, hb, hbd⟩ := Kernel.slot_spec hv.dst_slot
  -- the only name on the way that is missing is the last
  have hlast : ∀ s : List String, s ≠ [] → s <+: [n'] → s = [n'] := by
    intro s hs hsr
    obtain ⟨x, s, rfl⟩ := List.exists_cons_of_ne_nil hs
    obtain ⟨rfl, hnil⟩ := List.cons_prefix_cons.mp hsr
    rw [List.prefix_nil.mp hnil]
  have hpass : u.Passable d' [n'] := fun s hs hsr => .inr (hlast s hs hsr ▸ hv.absent)
  obtain ⟨u₁, hmk, hlaid⟩ := Kernel.create_dir_all_below hb hbd hpass
  refine ⟨u₁, hmk, fun x => ?_⟩
  by_cases hx : x = d' ++ [n']
  · subst hx
    rw [if_pos (.inl rfl), hlaid.made [n'] (by simp) List.prefix_rfl, List.drop_length,
      List.append_nil, hdir]
  · rw [if_neg (by simpa using hx)]
    exact hlaid.rest x fun s hs hsr heq => hx (hlast s hs hsr ▸ heq)

/-- The copy of a file. -/
theorem copy_file_carried {bs : Bytes} (hv : Vacant k u p q d n d' n')
    (hfile : u.get (d ++ [n]) = some (.file bs)) :
    ∃ u' m, copy_file k u p q .none = (u', .ok m) ∧ Carried .copy u (d ++ [n]) (d' ++ [n']) u' := by
  obtain ⟨a, rfl, ha, -⟩ := Kernel.slot_spec hv.src_slot
  obtain ⟨b, rfl, hb, hbd⟩ := Kernel.slot_spec hv.dst_slot
  have hstat := Kernel.stat_child_of_get ha hfile (by simp)
  have hplace := Kernel.place_child hb hbd (linkAt_of_none hv.absent)
  obtain ⟨hok, hget⟩ := Chunks.copy_file_whole hstat hplace (by simp [hv.absent]) hfile
  have hne : d ++ [n] ≠ d' ++ [n'] := fun heq => hv.src_there (heq ▸ hv.absent)
  rw [if_neg hne] at hok hget
  refine ⟨_, _, Prod.ext rfl hok, fun x => ?_⟩
  rw [hget x]
  by_cases hx : d' ++ [n'] <+: x
  · obtain ⟨r, rfl⟩ := hx
    rw [if_pos (List.prefix_append _ _), List.drop_left]
    by_cases hr : r = []
    · rw [hr, List.append_nil, if_pos rfl, List.append_nil, hfile]
    · rw [if_neg (by simpa using hr), hv.none r, u.get_below hr (by simp [hfile])]
  · have hxD : x ≠ d' ++ [n'] := fun heq => hx (heq ▸ List.prefix_rfl)
    rw [if_neg hx, if_neg hxD, if_neg fun hc => absurd hc.1 (by decide)]

/-- **`copy_recursive`** of a tree without links to a free place copies it. -/
theorem copy_recursive_carried (hv : Vacant k u p q d n d' n')
    (hdeep : ∀ r, u.get (d ++ [n] ++ r) ≠ none → r.length < fuel) (hfs : ∀ f ∈ fs, f = .none) :
    ∃ u' fs', copy_recursive k fuel p q u fs = some (u', fs', .ok ()) ∧ (∀ f ∈ fs', f = .none) ∧
      Carried .copy u (d ++ [n]) (d' ++ [n']) u' := by
  induction fuel generalizing u p q d n d' n' fs with
  | zero => exact absurd (hdeep [] (by rw [List.append_nil]; exact hv.src_there)) (by omega)
  | succ fuel ih =>
      obtain ⟨a, hp, ha, -⟩ := Kernel.slot_spec hv.src_slot
      obtain ⟨e, he⟩ := Option.ne_none_iff_exists'.mp hv.src_there
      rcases hv.entry (r := []) (by rw [List.append_nil, he]) with rfl | ⟨bs, rfl⟩
      -- a directory: made first, read after that, and then copied name by name
      · have hstat : ∀ {v : FileTree Bytes}, Extends u v → k.stat v p = some (d ++ [n]) := by
          intro v hx
          rw [hp]
          exact Kernel.stat_child_of_get (Kernel.stat_extends hx ha) (hx _ _ he) (by simp)
        have hisdir : k.is_dir u p = true := Kernel.is_dir_iff.mpr ⟨_, hstat fun _ _ h => h, he⟩
        obtain ⟨u₁, hmk, hspread⟩ := spread_start hv he
        have hx₁ := hspread.extends hv.absent
        -- what was made at the destination is not in the source
        have hoff : ∀ r, u₁.get (d ++ [n] ++ r) = u.get (d ++ [n] ++ r) := fun r =>
          hspread.off fun ⟨z, hz⟩ => hv.apart.incomparable r z hz.symm
        have hread : read_dir k u₁ p (now fs.tail) = .ok (u₁.children (d ++ [n])) := by
          simp only [read_dir, now_none (tail_none hfs), Fault.errno, hstat hx₁, hx₁ _ _ he, if_true]
        have hchild : ∀ c, c ∈ u₁.children (d ++ [n]) ↔ u.get (d ++ [n] ++ [c]) ≠ none := fun c => by
          rw [mem_children, hoff, Option.isSome_iff_ne_none]
        obtain ⟨u', fs', hcopy, hfs', hend⟩ := copy_each_spread
          (fun c => copy_recursive k fuel (p.child c) (q.child c)) hv he
          (fun c w gs hv' hsame hgs => ih hv' (fun r hr => by
            rw [hsame] at hr
            have hlen := hdeep _ hr
            rw [List.length_append, List.length_singleton] at hlen
            omega) hgs)
          (show ([] ++ u₁.children (d ++ [n])).Nodup from nodup_children u₁ _)
          (fun c hc => (hchild c).mp hc) (tail_none (tail_none hfs)) hspread
        refine ⟨u', fs', ?_, hfs', hend.whole hv.absent fun c hc => ?_⟩
        · simp only [copy_recursive, hisdir, if_true, now_none hfs, hmk, hread]
          exact hcopy
        · by_contra hne
          exact hc ((hchild c).mpr hne)
      -- a file
      · have hisdir : k.is_dir u p = false := by
          rw [hp]
          simp [Kernel.is_dir, Kernel.stat_child_of_get ha he (by simp), he]
        obtain ⟨u', m, hcp, hcar⟩ := copy_file_carried hv he
        refine ⟨u', fs.tail, ?_, tail_none hfs, hcar⟩
        simp only [copy_recursive, hisdir, Bool.false_eq_true, if_false, now_none hfs, hcp]

/-- What is removed after the copy. -/
theorem remove_recursive_carried {src : PathBuf} (hv : Vacant k u src.path q d n d' n')
    (hsrc : src.tail = .none) (hw : Carried .copy u (d ++ [n]) (d' ++ [n']) w) :
    ∃ w', remove_recursive k w src .none = (w', none) ∧
      Carried .move u (d ++ [n]) (d' ++ [n']) w' := by
  have hoff : ∀ x, ¬ d' ++ [n'] <+: x → w.get x = u.get x := fun x hx => by
    rw [hw x, if_neg hx, if_neg fun hc => absurd hc.1 (by decide)]
  have hx : Extends u w := fun x e he => by
    rw [hoff x fun hp => ?_, he]
    rw [u.get_none_of_prefix hp hv.absent] at he
    cases he
  obtain ⟨e, he⟩ := Option.ne_none_iff_exists'.mp hv.src_there
  have hthere := hx _ _ he
  have hslot := Kernel.slot_extends hx hv.src_slot
  -- file or directory, it goes with all that is below it
  have hgone : ∃ w', remove_recursive k w src .none = (w', none) ∧
      ∀ x, w'.get x = if d ++ [n] <+: x then none else w.get x := by
    obtain ⟨a, hp, ha, -⟩ := Kernel.slot_spec hslot
    rcases hv.entry (r := []) (by rw [List.append_nil, he]) with rfl | ⟨bs, rfl⟩
    · have hdir : k.is_dir w src.path = true := Kernel.is_dir_iff.mpr
        ⟨_, by rw [hp]; exact Kernel.stat_child_of_get ha hthere (by simp), hthere⟩
      refine ⟨w.erase (d ++ [n]) (by simp), ?_, fun x => get_erase ..⟩
      simp only [remove_recursive, hdir, if_true, hsrc, remove_dir_all_at_none, remove_dir_all,
        Kernel.remove_dir_all, hslot, hthere]
    · have hdir : k.is_dir w src.path = false := by
        rw [hp]
        simp [Kernel.is_dir, Kernel.stat_child_of_get ha hthere (by simp), hthere]
      refine ⟨w.erase (d ++ [n]) (by simp), ?_, fun x => get_erase ..⟩
      simp only [remove_recursive, hdir, Bool.false_eq_true, if_false, hsrc,
        Fault.remove_file_at_none, remove_file, Fault.errno, Kernel.remove_file, hslot, hthere]
  obtain ⟨w', hrm, hget⟩ := hgone
  refine ⟨w', hrm, fun x => ?_⟩
  rw [hget x]
  by_cases hxD : d' ++ [n'] <+: x
  · obtain ⟨r, rfl⟩ := hxD
    rw [if_neg (hv.apart.not_below r), if_pos (List.prefix_append _ _), hw,
      if_pos (List.prefix_append _ _)]
  · rw [if_neg hxD]
    by_cases hxS : d ++ [n] <+: x
    · rw [if_pos hxS, if_pos ⟨rfl, hxS⟩]
    · rw [if_neg hxS, if_neg fun hc => hxS hc.2, hoff x hxD]

/-! ## The helper's part -/

/-- Nothing fails in the helper, except that a rename may be told that the two ends
are on different devices. -/
def Helped (is_move : Bool) (fs : List Fault) : Prop :=
  (now fs = .none ∨ is_move = true ∧ (now fs).errno = some .exdev) ∧ ∀ f ∈ fs.tail, f = .none

section

variable {src dst : PathBuf}

/-- Nothing fails in a `copy_recursive` between two paths that end in names. -/
theorem copy_faults_none (hsrc : src.tail = .none) (hdst : dst.tail = .none)
    (hfs : ∀ f ∈ fs, f = .none) : ∀ f ∈ copy_faults k u src dst fs, f = .none := by
  intro f hf
  unfold copy_faults at hf
  rw [hsrc, hdst, Fault.create_dir_all_at_none, Fault.copy_file_at_none, ite_self] at hf
  rcases List.mem_cons.mp hf with rfl | hf
  · exact now_none hfs
  · exact tail_none hfs f hf

/-- `"move"` in the helper. -/
theorem carry_move_carried (hv : Vacant k u src.path dst.path d n d' n') (hsrc : src.tail = .none)
    (hdst : dst.tail = .none) (hdeep : ∀ r, u.get (d ++ [n] ++ r) ≠ none → r.length < fuel)
    (hfs : Helped true fs) :
    ∃ u', carry_move k fuel src dst u fs = some (u', none) ∧
      Carried .move u (d ++ [n]) (d' ++ [n']) u' := by
  obtain ⟨hnow, htail⟩ := hfs
  have hat : (now fs).rename_at k u src.path src.tail dst.path dst.tail = now fs := by
    rw [hsrc, hdst, Fault.rename_at_none]
  cases hr : Mover.rename k u src.path dst.path (now fs) with
  | ok u' =>
      refine ⟨u', by simp only [carry_move, hat, hr], fun x => ?_⟩
      obtain ⟨x₁, m₁, x₂, m₂, e₀, h₁, h₂, -, -, -, hcase⟩ := Kernel.rename_spec (rename_ok hr)
      rw [hv.src_slot] at h₁
      rw [hv.dst_slot] at h₂
      cases h₁
      cases h₂
      rcases hcase with ⟨heq, -⟩ | ⟨-, -, -, -, hget⟩
      · exact absurd heq hv.apart.other
      · rw [hget]
        simp only [true_and]
  | error e =>
      have hex : e = .exdev := by
        rcases hnow with hn | ⟨-, hn⟩
        · rw [hn] at hr
          exact rename_refused hv.src_slot hv.dst_slot hv.src_there hv.absent hv.outside hr
        · simp only [Mover.rename, hn] at hr
          exact (Except.error.inj hr).symm
      subst hex
      obtain ⟨w, gs, hcopy, hgs, hw⟩ :=
        copy_recursive_carried hv hdeep (copy_faults_none (k := k) (u := u) hsrc hdst htail)
      obtain ⟨w', hrm, hw'⟩ := remove_recursive_carried hv hsrc hw
      exact ⟨w', by simp only [carry_move, hat, hr, hcopy, now_none hgs, hrm], hw'⟩

/-- `"copy"` in the helper. -/
theorem carry_copy_carried (hv : Vacant k u src.path dst.path d n d' n') (hsrc : src.tail = .none)
    (hdst : dst.tail = .none) (hdeep : ∀ r, u.get (d ++ [n] ++ r) ≠ none → r.length < fuel)
    (hfs : Helped false fs) :
    ∃ u', carry_copy k fuel src dst u fs = some (u', none) ∧
      Carried .copy u (d ++ [n]) (d' ++ [n']) u' := by
  have hall : ∀ f ∈ fs, f = .none := by
    intro f hf
    cases fs with
    | nil => cases hf
    | cons g gs =>
        rcases List.mem_cons.mp hf with rfl | hf
        · exact hfs.1.resolve_right (by simp)
        · exact hfs.2 f hf
  obtain ⟨w, gs, hcopy, -, hw⟩ :=
    copy_recursive_carried hv hdeep (copy_faults_none (k := k) (u := u) hsrc hdst hall)
  exact ⟨w, by simp only [carry_copy, hcopy, Option.map_some], hw⟩

/-- The helper settles on the destination it is given, when nothing is there. -/
theorem settle_vacant {strategy : Strategy} (hv : Vacant k t src.path dst.path d n d' n')
    (hdst : dst.tail = .none) : settle k t src dst strategy = .ok dst := by
  obtain ⟨b, hb, hs, -⟩ := Kernel.slot_spec hv.dst_slot
  have hnone : k.stat t dst.path = none := by
    rw [hb]
    exact Kernel.stat_child_of_none hs hv.absent
  have hdest : dest_for k t src dst = dst := by
    simp only [dest_for, Kernel.is_dir, hnone, Bool.false_eq_true, if_false]
  have hfull : k.exists_ t dst.full = false := by
    rw [PathBuf.full, hdst, Path.tailed_none, Kernel.exists_, hnone, Option.isSome_none]
  simp only [settle, hdest, hfull, Bool.false_eq_true, if_false]

end

/-! ## Both together -/

/-- `op_name`. -/
def op_of (is_move : Bool) : Op := if is_move then .move else .copy

/-- What the handler answers when the helper has done the work. -/
def carried_reply (is_move : Bool) (dst : String) : Reply :=
  ⟨200, .obj [("ok", .bool true), ("op", .str (if is_move then "move" else "copy")),
    ("dst", .str dst)]⟩

/-- The run of the helper for a transfer that it has done. -/
def carried_run (t : FileTree Bytes) (is_move : Bool) (src dst : PathBuf) (strategy : Strategy) :
    Elevation :=
  ⟨.transfer is_move src dst strategy, t, .ok (done dst.text)⟩

/-- **The helper's run of a transfer**, with fuel for the depth of the tree. -/
theorem handle_carried {is_move : Bool} {src dst final_dst : PathBuf} {strategy : Strategy}
    (hr : resolve k t src dst strategy = .ok final_dst)
    (hv : Vacant k t src.path final_dst.path d n d' n') (hsrc : src.tail = .none)
    (hdst : final_dst.tail = .none)
    (hdeep : ∀ r, t.get (d ++ [n] ++ r) ≠ none → r.length < fuel) (hfs : Helped is_move fs) :
    ∃ u, handle_move_copy k fuel t t fs is_move src dst strategy
        = some ⟨u, carried_reply is_move final_dst.text,
          some (carried_run t is_move src final_dst strategy)⟩ ∧
      Carried (op_of is_move) t (d ++ [n]) (d' ++ [n']) u := by
  cases is_move with
  | true =>
      obtain ⟨u, hrun, hu⟩ := carry_move_carried hv hsrc hdst hdeep hfs
      refine ⟨u, ?_, hu⟩
      simp only [handle_move_copy, hr, sudo_run, run, settle_vacant hv hdst, if_true, hrun,
        Option.map_some]
      rfl
  | false =>
      obtain ⟨u, hrun, hu⟩ := carry_copy_carried hv hsrc hdst hdeep hfs
      refine ⟨u, ?_, hu⟩
      simp only [handle_move_copy, hr, sudo_run, run, settle_vacant hv hdst, Bool.false_eq_true,
        if_false, hrun, Option.map_some]
      rfl

end

/-- **A transfer with a password and one without leave the same tree**: whatever
the order of its workers' calls the job ends well with the tree that the helper
leaves, even where renames are refused and files are copied. -/
theorem transfers_agree (k : Kernel) (h : Host) (t : FileTree Bytes) (is_move : Bool)
    (src dst final_dst : PathBuf) (strategy : Strategy) (d d' : Loc) (n n' : String)
    (hr : resolve k t src dst strategy = .ok final_dst)
    (hv : Vacant k t src.path final_dst.path d n d' n') (hsrc : src.tail = .none)
    (hdst : final_dst.tail = .none) :
    ∃ (w : FileTree Bytes) (depth : Nat), Carried (op_of is_move) t (d ++ [n]) (d' ++ [n']) w ∧
      (∀ fuel fs, depth ≤ fuel → Helped is_move fs → ∃ u,
        handle_move_copy k fuel t t fs is_move src dst strategy
          = some ⟨u, carried_reply is_move final_dst.text,
            some (carried_run t is_move src final_dst strategy)⟩ ∧ ∀ x, u.get x = w.get x) ∧
      Ends (alone k) Passes (fun s => s.2.phase = .finished ∧ s.2.job.status = .done ∧
          s.2.job.error = none ∧ ∀ x, s.1.get x = w.get x)
        (t, spawn h (op_of is_move) src final_dst) := by
  have hdeep : ∀ fuel, (t.dom.map List.length).foldr max 0 + 1 ≤ fuel →
      ∀ r, t.get (d ++ [n] ++ r) ≠ none → r.length < fuel := by
    intro fuel hle r hne
    obtain ⟨e, he⟩ := Option.ne_none_iff_exists'.mp hne
    have hlen := length_le_of_get he
    rw [List.length_append] at hlen
    omega
  -- the helper's tree, when nothing fails
  have hnone : Helped is_move [] := ⟨.inl rfl, fun f hf => absurd hf (by simp)⟩
  obtain ⟨w, -, hw⟩ := handle_carried hr hv hsrc hdst (hdeep _ (Nat.le_refl _)) hnone
  have hsame : ∀ u, Carried (op_of is_move) t (d ++ [n]) (d' ++ [n']) u → ∀ x, u.get x = w.get x :=
    fun u hu x => (hu x).trans (hw x).symm
  refine ⟨w, (t.dom.map List.length).foldr max 0 + 1, hw, fun fuel fs hle hfs => ?_, ?_⟩
  · obtain ⟨u, hrun, hu⟩ := handle_carried hr hv hsrc hdst (hdeep fuel hle) hfs
    exact ⟨u, hrun, hsame u hu⟩
  · have hop : op_of is_move ≠ .delete := by cases is_move <;> decide
    refine ends_of_measure (Prod.lex Nat.lt_wfRel Nat.lt_wfRel).wf calls_left
      (I := Carry k (op_of is_move) t src.path final_dst.path d n d' n')
      (fun _ _ _ hI he hs => carry_step hop hv hI he hs) (fun s hI => ?_)
      (fun _ _ _ _ _ hs => calls_less hs) ⟨rfl, rfl, ⟨hsrc, hdst⟩, rfl, h.nthreads_pos, rfl, rfl⟩
    rcases carry_goes_on hv hI with ⟨hphase, hdone, herr, hcar⟩ | hgo
    · exact .inl ⟨hphase, hdone, herr, hsame _ hcar⟩
    · exact .inr hgo

/-- The directory `d` of the vault, moved to `e`. -/
theorem transfers_agree_vault : ∃ (w : FileTree Bytes) (depth : Nat),
    Carried .move vault ["d"] ["e"] w ∧
      (∀ fuel fs, depth ≤ fuel → Helped true fs → ∃ u,
        handle_move_copy box fuel vault vault fs true (.abs ["d"]) (.abs ["e"]) .none
          = some ⟨u, carried_reply true "/e",
            some (carried_run vault true (.abs ["d"]) (.abs ["e"]) .none)⟩ ∧ ∀ x, u.get x = w.get x) ∧
      Ends (alone box) Passes (fun s => s.2.phase = .finished ∧ s.2.job.status = .done ∧
          s.2.job.error = none ∧ ∀ x, s.1.get x = w.get x)
        (vault, spawn box_host .move (.abs ["d"]) (.abs ["e"])) := by
  have hlink : ∀ x, vault.linkAt x = none := by
    intro x
    by_contra hne
    obtain ⟨tgt, htgt⟩ := Option.ne_none_iff_exists'.mp hne
    have hmem := vault.mem_dom (linkAt_eq_some.mp htgt)
    have hno : ∀ y ∈ vault.dom, vault.linkAt y = none := by decide
    exact hne (hno x hmem)
  have hv : Vacant box vault (.abs ["d"]) (.abs ["e"]) [] "d" [] "e" :=
    ⟨by decide, by decide, by decide, by decide, by decide, fun r => hlink _⟩
  exact transfers_agree box box_host vault true (.abs ["d"]) (.abs ["e"]) (.abs ["e"]) .none [] []
    "d" "e"
    (by decide) hv rfl rfl

/-! ## Deletions -/

section

variable {k : Kernel} {t : FileTree Bytes} {src : PathBuf} {d : Loc} {n : String} {fuel : Nat}
variable {fs : List Fault}

/-- The run of the helper for a deletion that it has done. -/
def deleted_run (t : FileTree Bytes) (src : PathBuf) : Elevation :=
  ⟨.delete src, t, .ok (.obj [("ok", .bool true)])⟩

/-- **The helper's run of a deletion**: what was named is gone with all below it, links
included, and nothing else. -/
theorem handle_deleted (fuel : Nat) (hslot : k.slot t src.path = some (d, n))
    (htail : src.tail = .none) (hthere : t.get (d ++ [n]) ≠ none) (htext : src.text ≠ "")
    (hfs : now fs = .none) :
    ∃ w, handle_delete k fuel t t fs src
        = some ⟨w, ⟨200, .obj [("ok", .bool true)]⟩, some (deleted_run t src)⟩ ∧
      ∀ x, w.get x = if d ++ [n] <+: x then none else t.get x := by
  have hlstat : k.lstat t src.full = t.get (d ++ [n]) := by
    rw [PathBuf.full, htail, Path.tailed_none, Kernel.lstat_eq, Kernel.entry_at_of_slot hslot,
      Option.bind_some]
  obtain ⟨e, he⟩ := Option.ne_none_iff_exists'.mp hthere
  have hrun : ∃ w, run k fuel t fs (.delete src) = some (w, .ok (.obj [("ok", .bool true)])) ∧
      ∀ x, w.get x = if d ++ [n] <+: x then none else t.get x := by
    -- the helper removes a directory with all it has, and takes anything else, a link too,
    -- for one entry
    by_cases hdir : e = .dir
    · subst hdir
      refine ⟨t.erase (d ++ [n]) (by simp), ?_, fun x => get_erase ..⟩
      have hall : Mover.remove_dir_all k t src.path .none = (t.erase (d ++ [n]) (by simp), none) := by
        simp only [Mover.remove_dir_all, Kernel.remove_dir_all, hslot, he]
      simp only [run, hlstat, he, hfs, htail, remove_dir_all_at_none, hall, report]
    · have hrm : k.remove_file t src.path = .ok (t.erase (d ++ [n]) (by simp)) := by
        cases e with
        | dir => exact absurd rfl hdir
        | file a => simp only [Kernel.remove_file, hslot, he]
        | symlink p => simp only [Kernel.remove_file, hslot, he]
      refine ⟨t.erase (d ++ [n]) (by simp), ?_, fun x => get_erase ..⟩
      have hrm' : Mover.remove_file k t src.path .none = .ok (t.erase (d ++ [n]) (by simp)) := hrm
      cases e with
      | dir => exact absurd rfl hdir
      | file a => simp only [run, hlstat, he, hfs, htail, Fault.remove_file_at_none, hrm']
      | symlink p => simp only [run, hlstat, he, hfs, htail, Fault.remove_file_at_none, hrm']
  obtain ⟨w, hw, hget⟩ := hrun
  refine ⟨w, ?_, hget⟩
  simp only [handle_delete, htext, if_false, hlstat, he, reduceCtorEq, sudo_run, hw, Option.map_some]
  rfl

end

/-- **A deletion with a password and one without leave the same tree.** The helper
removes what was named and nothing else, whatever links there are; where none of them
leads to a directory the job does the same in every order of its workers' calls. -/
theorem deletions_agree (k : Kernel) (h : Host) (t : FileTree Bytes) (src : PathBuf) (d : Loc)
    (n : String) (fuel : Nat) (fs : List Fault) (hslot : k.slot t src.path = some (d, n))
    (htail : src.tail = .none) (hthere : t.get (d ++ [n]) ≠ none) (htext : src.text ≠ "")
      (hfs : now fs = .none) :
    ∃ w, handle_delete k fuel t t fs src
        = some ⟨w, ⟨200, .obj [("ok", .bool true)]⟩, some (deleted_run t src)⟩ ∧
      (∀ x, w.get x = if d ++ [n] <+: x then none else t.get x) ∧
      (Deletable k t src.path src.tail (d ++ [n]) →
        Ends (deleting k) Unhindered (fun x => Gone (d ++ [n]) x ∧ ∀ y, x.1.get y = w.get y)
          (t, Deleter.start h src)) := by
  obtain ⟨w, hw, hget⟩ := handle_deleted fuel hslot htail hthere htext hfs
  refine ⟨w, hw, hget, fun hd => ?_⟩
  have hframed : Framed t src.path src.tail (d ++ [n]) (t, Deleter.start h src) :=
    ⟨rfl, rfl, Shrunk.refl, show FramedAt t src.path (d ++ [n]) t .queued from rfl⟩
  refine ends_of_measure (Prod.lex Nat.lt_wfRel Nat.lt_wfRel).wf to_do
    (I := Sure t src.path src.tail (d ++ [n])) (fun _ _ _ hI he hs => sure_step hd hI he hs)
    (fun x hI => ?_) (fun _ _ _ _ _ hs => to_do_less hs) ⟨hframed, h.nthreads_pos, rfl, rfl, rfl⟩
  rcases sure_goes_on hd hI with hgone | hgo
  · refine .inl ⟨hgone, fun y => ?_⟩
    rw [hget]
    split
    · rename_i hy
      exact hgone.2.2.1 y hy
    · rename_i hy
      exact hI.framed.shrunk.out y hy
  · exact .inr hgo

/-- The directory `d` of the vault, deleted. -/
theorem deletions_agree_vault : ∃ w,
    handle_delete box 0 vault vault [] (.abs ["d"])
        = some ⟨w, ⟨200, .obj [("ok", .bool true)]⟩, some (deleted_run vault (.abs ["d"]))⟩ ∧
      (∀ x, w.get x = if ["d"] <+: x then none else vault.get x) ∧
      Ends (deleting box) Unhindered (fun x => Gone ["d"] x ∧ ∀ y, x.1.get y = w.get y)
        (vault, Deleter.start box_host (.abs ["d"])) := by
  have hd : Deletable box vault (.abs ["d"]) .none ["d"] :=
    ⟨⟨[], "d", by decide, rfl⟩, by decide, fun _ => plain_of_no_links (by decide) _,
      fun _ => by decide, fun _ => by decide, .inl rfl⟩
  obtain ⟨w, hw, hget, hends⟩ := deletions_agree box box_host vault (.abs ["d"]) [] "d" 0 []
    (by decide) rfl (by decide) (by decide) rfl
  exact ⟨w, hw, hget, hends hd⟩

end WebDavs.Sudo
