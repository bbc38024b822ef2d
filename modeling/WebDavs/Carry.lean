/-
What a transfer leaves, whichever way it goes.

A move or a copy of a tree without links to a free place can be one rename, a
rename for each file, or a copy of each, by any number of workers and in any order
of them; and with a password it is one rename or a recursive copy in the helper.
All of these leave one tree (`Carried`). `Landed` is what has become of a file once
its worker has done with it.

The conditions are those under which nothing gets in the way of itself
(`Vacant`): the source has no link at or below it, nothing is at the destination,
its directory is there, and it does not lie in the source.
-/
import WebDavs.Agree
import WebDavs.Chunks

set_option autoImplicit false

namespace WebDavs.Mover

open WebDavs.Posix WebDavs.Posix.FileTree WebDavs.Steps

/-! ## The task -/

/-- `src` names an entry with no link at or below it, and `dst` a place where nothing
is, in a directory that is no part of the source. -/
structure Vacant (k : Kernel) (t : FileTree Bytes) (src dst : Path) (d : Loc) (n : String)
    (d' : Loc) (n' : String) : Prop where
  src_slot : k.slot t src = some (d, n)
  src_there : t.get (d ++ [n]) ≠ none
  dst_slot : k.slot t dst = some (d', n')
  absent : t.get (d' ++ [n']) = none
  outside : ¬ d ++ [n] <+: d'
  linkless : ∀ r, t.linkAt (d ++ [n] ++ r) = none

/-- `u` is `t` with what was at `S` at `D` as well, or instead. -/
def Carried (op : Op) (t : FileTree Bytes) (S D : Loc) (u : FileTree Bytes) : Prop :=
  ∀ x, u.get x = if D <+: x then t.get (S ++ x.drop D.length)
    else if op = .move ∧ S <+: x then none else t.get x

/-- A file has got where it is to be. -/
def Landed (op : Op) (t : FileTree Bytes) (S D : Loc) (u : FileTree Bytes)
    (f : Path × List String) : Prop :=
  u.get (D ++ f.2) = t.get (S ++ f.2) ∧
    u.get (S ++ f.2) = if op = .move then none else t.get (S ++ f.2)

section

variable {k : Kernel} {t u u' : FileTree Bytes} {src dst : Path} {d d' : Loc} {n n' : String}
variable {l : Listing} {op : Op}

theorem Vacant.apart (h : Vacant k t src dst d n d' n') : Apart k t src dst d n d' n' where
  src_slot := h.src_slot
  src_there := h.src_there
  dst_slot := h.dst_slot
  free e he := by
    rw [h.absent] at he
    cases he
  dead hl := get_of_leads hl h.absent
  other heq := h.src_there (heq ▸ h.absent)
  outside := h.outside

theorem Vacant.plain (h : Vacant k t src dst d n d' n') : Plain k t (d ++ [n]) := by
  rintro x m tgt ⟨r, hr⟩ hlink
  have hno := h.linkless r
  rw [hr, linkAt_eq_some.mpr hlink] at hno
  cases hno

/-- An entry below the source is a directory or a file. -/
theorem Vacant.entry (h : Vacant k t src dst d n d' n') {r : List String} {e : Entry Bytes}
    (he : t.get (d ++ [n] ++ r) = some e) : e = .dir ∨ ∃ bs, e = .file bs := by
  cases e with
  | dir => exact .inl rfl
  | file bs => exact .inr ⟨bs, rfl⟩
  | symlink tgt =>
      have hno := h.linkless r
      rw [linkAt_eq_some.mpr he] at hno
      cases hno

theorem Vacant.none (h : Vacant k t src dst d n d' n') (r : List String) :
    t.get (d' ++ [n'] ++ r) = none :=
  t.get_none_of_prefix (List.prefix_append _ _) h.absent

/-- What a listed file is, and where. -/
theorem Vacant.file (h : Vacant k t src dst d n d' n') (hl : IsListing k t src l)
    {f : Path × List String} (hf : f ∈ l.files) :
    f.1 = src.down f.2 ∧ (∃ bs, t.get (d ++ [n] ++ f.2) = some (.file bs)) ∧
      ∃ x m, k.slot t f.1 = some (x, m) ∧ x ++ [m] = d ++ [n] ++ f.2 := by
  obtain ⟨e, he⟩ := Option.ne_none_iff_exists'.mp h.src_there
  have hn := Names.of_slot h.src_slot he h.plain
  obtain ⟨e', he', hne, -⟩ := (hl.plain hn h.plain).1 f hf
  obtain ⟨hpath, -, x, m, -, hs, -, -⟩ := hl.file hf
  have hent := plain_entry h.apart hl h.plain hf
  rw [Kernel.entry_at_of_slot hs, Option.some.injEq] at hent
  refine ⟨hpath, ?_, x, m, hs, hent⟩
  rcases h.entry he' with rfl | ⟨bs, rfl⟩
  · exact absurd rfl hne
  · exact ⟨bs, he'⟩

end

/-! ## One file at a time -/

/-- Nothing has changed but at the two places of one file. -/
def Only (S D : Loc) (r : List String) (u u' : FileTree Bytes) : Prop :=
  ∀ x, x ≠ D ++ r → x ≠ S ++ r → u'.get x = u.get x

/-- A file that nobody has touched yet. -/
def Waiting (t : FileTree Bytes) (S D : Loc) (u : FileTree Bytes) (f : Path × List String) : Prop :=
  u.get (S ++ f.2) = t.get (S ++ f.2) ∧ u.get (D ++ f.2) = none

/-- Where the file is that a worker has, as long as nothing fails. -/
def Worker.Brings (op : Op) (t : FileTree Bytes) (S D : Loc) (u : FileTree Bytes)
    (f : Path × List String) : Worker → Prop
  | .rename _ => op = .move ∧ Waiting t S D u f
  | .remove _ => op = .move ∧ Landed .copy t S D u f
  | .report _ true => Landed op t S D u f
  | .report _ false => False
  | .fail _ _ => False
  | .note _ _ => False
  | _ => Waiting t S D u f

/-- The terms of the workers of a transfer. -/
def carry_terms (op : Op) (t : FileTree Bytes) (S D : Loc) (u : FileTree Bytes) :
    Pool.Terms Worker (Path × List String) where
  waiting f := Waiting t S D u f
  held w f := w.Brings op t S D u f
  settled f := Landed op t S D u f
  always _ := True

section

variable {k : Kernel} {t u u' : FileTree Bytes} {src dst : Path} {d d' : Loc} {n n' : String}
variable {l : Listing} {op : Op} {f : Path × List String}

/-- The places of another file are others. -/
theorem Only.elsewhere (ha : Apart k t src dst d n d' n') (h : Only (d ++ [n]) (d' ++ [n']) f.2 u u')
    {r : List String} (hr : r ≠ f.2) : u'.get (d ++ [n] ++ r) = u.get (d ++ [n] ++ r) ∧
      u'.get (d' ++ [n'] ++ r) = u.get (d' ++ [n'] ++ r) := by
  constructor
  · exact h _ (ha.incomparable _ _) fun heq => hr (List.append_cancel_left heq)
  · exact h _ (fun heq => hr (List.append_cancel_left heq)) fun heq => ha.incomparable _ _ heq.symm

theorem Only.keeps (ha : Apart k t src dst d n d' n') (h : Only (d ++ [n]) (d' ++ [n']) f.2 u u')
    {g : Path × List String} (hg : g.2 ≠ f.2) :
    (carry_terms op t (d ++ [n]) (d' ++ [n']) u).Keeps
      (carry_terms op t (d ++ [n]) (d' ++ [n']) u') g := by
  obtain ⟨hs, hd⟩ := h.elsewhere ha hg
  have hwait : Waiting t (d ++ [n]) (d' ++ [n']) u g → Waiting t (d ++ [n]) (d' ++ [n']) u' g :=
    fun hw => ⟨hs.trans hw.1, hd.trans hw.2⟩
  have hland : ∀ op, Landed op t (d ++ [n]) (d' ++ [n']) u g →
      Landed op t (d ++ [n]) (d' ++ [n']) u' g :=
    fun op hw => ⟨hd.trans hw.1, hs.trans hw.2⟩
  refine ⟨hwait, fun w hw => ?_, hland op, id⟩
  cases w with
  | rename task => exact ⟨hw.1, hwait hw.2⟩
  | remove task => exact ⟨hw.1, hland _ hw.2⟩
  | report task ok =>
      cases ok with
      | true => exact hland op hw
      | false => exact hw
  | fail task e => exact hw
  | note task e => exact hw
  | _ => exact hwait hw

/-- The directories made, and the way to them, stay. -/
theorem Only.going (hv : Vacant k t src dst d n d' n') (hl : IsListing k t src l) (hf : f ∈ l.files)
    (hG : Going k t d' n' l u) (h : Only (d ++ [n]) (d' ++ [n']) f.2 u u')
    (hs : u'.get (d ++ [n] ++ f.2) = u.get (d ++ [n] ++ f.2) ∨ u'.get (d ++ [n] ++ f.2) = none) :
    Going k t d' n' l u' := by
  obtain ⟨-, ⟨bs, hbs⟩, -⟩ := hv.file hl hf
  refine ⟨fun x m hx => ?_, hG.absent, fun x hx => ?_, fun rel hrel => ?_⟩
  · rw [h, hG.dirs x m hx]
    · intro heq
      exact get_of_leads hx (heq ▸ hv.none f.2)
    · -- a file leads to no directory
      intro heq
      obtain ⟨y, hy, hyd⟩ := hx
      rw [← heq] at hbs
      rw [walk_single hbs (by simp), Option.some.injEq] at hy
      rw [← hy, hbs] at hyd
      cases hyd
  · by_cases hxs : x = d ++ [n] ++ f.2
    · subst hxs
      rcases hs with hs | hs
      · rw [hs]
        exact hG.outside _ hx
      · exact .inr hs
    · rw [h x (fun heq => hx (heq ▸ List.prefix_append _ _)) hxs]
      exact hG.outside x hx
  · have hne : rel ≠ f.2 := fun heq => (hl.leaf hf).2 rel hrel (heq ▸ List.prefix_rfl)
    rw [(h.elsewhere hv.apart hne).2]
    exact hG.made rel hrel

/-- Nothing comes to be but where there was something in the source. -/
theorem Only.parting (hv : Vacant k t src dst d n d' n') (hl : IsListing k t src l)
    (hf : f ∈ l.files) (hP : Parting t (d ++ [n]) (d' ++ [n']) u)
    (h : Only (d ++ [n]) (d' ++ [n']) f.2 u u') : Parting t (d ++ [n]) (d' ++ [n']) u' := by
  obtain ⟨-, ⟨bs, hbs⟩, -⟩ := hv.file hl hf
  refine ⟨fun x hx hxs => ?_, fun r hr => ?_⟩
  · rw [h x (fun heq => hx (heq ▸ List.prefix_append _ _))
      (fun heq => hxs (heq ▸ List.prefix_append _ _))]
    exact hP.elsewhere x hx hxs
  · by_cases hrf : r = f.2
    · rw [hrf, hbs]
      exact Option.some_ne_none _
    · rw [(h.elsewhere hv.apart hrf).2] at hr
      exact hP.under r hr

/-- Another number in the list is another relative path. -/
theorem rel_ne (hl : IsListing k t src l) {i m : Nat} {g : Path × List String}
    (hf : l.files[i]? = some f) (hg : l.files[m]? = some g) (hm : m ≠ i) : g.2 ≠ f.2 := by
  intro heq
  apply hm
  have hmap : (l.files.map Prod.snd)[m]? = (l.files.map Prod.snd)[i]? := by
    rw [List.getElem?_map, List.getElem?_map, hg, hf, Option.map_some, Option.map_some, heq]
  have hlt : m < (l.files.map Prod.snd).length := by
    rw [List.length_map]
    exact (List.getElem?_eq_some_iff.mp hg).1
  exact (List.getElem?_inj hlt hl.nodup).mp hmap

/-! ## The calls for a file -/

/-- A file that waits can be opened, and its target is a free name in a directory. -/
theorem Waiting.ends (hv : Vacant k t src dst d n d' n') (hl : IsListing k t src l)
    (hf : f ∈ l.files) (hG : Going k t d' n' l u) (hw : Waiting t (d ++ [n]) (d' ++ [n']) u f) :
    ∃ bs x m x' m', t.get (d ++ [n] ++ f.2) = some (.file bs) ∧ k.stat u f.1 = some (x ++ [m]) ∧
      k.slot u f.1 = some (x, m) ∧ x ++ [m] = d ++ [n] ++ f.2 ∧
      k.slot u (dst.down f.2) = some (x', m') ∧ x' ++ [m'] = d' ++ [n'] ++ f.2 := by
  obtain ⟨-, ⟨bs, hbs⟩, x, m, hs, hx⟩ := hv.file hl hf
  obtain ⟨x', m', hs', hx'⟩ := hG.target hv.apart hl hf
  have hsu := Kernel.slot_keepsDirs hG.dirs hs
  refine ⟨bs, x, m, x', m', hbs, ?_, hsu, hx, hs', hx'⟩
  obtain ⟨q, hq, hqx, -⟩ := Kernel.slot_spec hsu
  rw [hq]
  refine Kernel.stat_child_of_get hqx (e := .file bs) ?_ (by simp)
  rw [hx, hw.1, hbs]

/-- What is at one name can be given another that is free, unless the two are on
different devices. -/
theorem rename_refused {p q : Path} {x x' : Loc} {m m' : String} (hs : k.slot u p = some (x, m))
    (hs' : k.slot u q = some (x', m')) (hthere : u.get (x ++ [m]) ≠ none)
    (hfree : u.get (x' ++ [m']) = none) (hup : ¬ x ++ [m] <+: x') {e : Errno}
    (he : k.rename u p q = .error e) : e = .exdev := by
  have hne : x ++ [m] ≠ x' ++ [m'] := fun heq => hthere (heq ▸ hfree)
  obtain ⟨-, -, -, hdir⟩ := Kernel.slot_spec hs'
  obtain ⟨-, -, -, hsrc⟩ := Kernel.slot_spec hs
  -- what is free is above nothing
  have hnot : ¬ x' ++ [m'] <+: x := by
    intro hpre
    rw [u.get_none_of_prefix hpre hfree] at hsrc
    cases hsrc
  have hcheck : Kernel.renameCheck u (x ++ [m]) (x' ++ [m']) = none := by
    obtain ⟨e₀, he₀⟩ := Option.ne_none_iff_exists'.mp hthere
    rw [Kernel.renameCheck_of_apart hthere (by rwa [List.dropLast_concat])
      (by rwa [List.dropLast_concat]), Kernel.kindCheck, he₀, hfree]
    cases e₀ <;> rfl
  unfold Kernel.rename at he
  rw [hs, hs'] at he
  dsimp only at he
  split at he
  · exact (Except.error.inj he).symm
  · rw [if_neg fun hc => hne hc.2, hcheck] at he
    dsimp only at he
    rw [dif_pos ⟨hdir, hup⟩] at he
    cases he

theorem Waiting.renamed (hv : Vacant k t src dst d n d' n') (hl : IsListing k t src l)
    (hf : f ∈ l.files) (hG : Going k t d' n' l u) (hw : Waiting t (d ++ [n]) (d' ++ [n']) u f)
    {e : Errno} (he : k.rename u f.1 (dst.down f.2) = .error e) : e = .exdev := by
  obtain ⟨bs, x, m, x', m', hbs, -, hs, hx, hs', hx'⟩ := hw.ends hv hl hf hG
  refine rename_refused hs hs' ?_ (by rw [hx', hw.2]) ?_ he
  · rw [hx, hw.1, hbs]
    simp
  · intro hp
    have hpre := hp.trans (List.prefix_append x' [m'])
    rw [hx, hx'] at hpre
    obtain ⟨r, hr⟩ := hpre
    rw [List.append_assoc] at hr
    exact hv.apart.incomparable _ _ hr

/-- The copy of a file that waits succeeds. -/
theorem Waiting.copied (hv : Vacant k t src dst d n d' n') (hl : IsListing k t src l)
    (hf : f ∈ l.files) (hG : Going k t d' n' l u) (hw : Waiting t (d ++ [n]) (d' ++ [n']) u f) :
    (∃ m, (copy_file k u f.1 (dst.down f.2) .none).2 = .ok m) ∧
      Only (d ++ [n]) (d' ++ [n']) f.2 u (copy_file k u f.1 (dst.down f.2) .none).1 ∧
      Landed .copy t (d ++ [n]) (d' ++ [n']) (copy_file k u f.1 (dst.down f.2) .none).1 f := by
  obtain ⟨bs, x, m, x', m', hbs, hst, -, hx, hs', hx'⟩ := hw.ends hv hl hf hG
  have hfree : u.get (x' ++ [m']) = none := by rw [hx', hw.2]
  have hplace : k.place u (dst.down f.2) = some (x', m') := by
    obtain ⟨q, hq, hqx, hdir⟩ := Kernel.slot_spec hs'
    rw [hq]
    exact Kernel.place_child hqx hdir (linkAt_of_none hfree)
  have hfile : u.get (x ++ [m]) = some (.file bs) := by rw [hx, hw.1, hbs]
  have hne : x ++ [m] ≠ x' ++ [m'] := by
    rw [hx, hx']
    exact hv.apart.incomparable _ _
  obtain ⟨hok, hget⟩ := Chunks.copy_file_whole hst hplace (by simp [hfree]) hfile
  rw [if_neg hne, hx'] at hget
  refine ⟨⟨_, hok⟩, fun y hy _ => ?_, ?_, ?_⟩
  · rw [hget, if_neg hy]
  · rw [hget, if_pos rfl, hbs]
  · rw [hget, if_neg (hv.apart.incomparable _ _), hw.1]
    rfl

/-- The original of a file that has been copied can be removed. -/
theorem Landed.removed (hv : Vacant k t src dst d n d' n') (hl : IsListing k t src l)
    (hf : f ∈ l.files) (hG : Going k t d' n' l u)
    (hw : Landed .copy t (d ++ [n]) (d' ++ [n']) u f) :
    ∃ u', remove_file k u f.1 .none = .ok u' ∧ Only (d ++ [n]) (d' ++ [n']) f.2 u u' ∧
      Landed .move t (d ++ [n]) (d' ++ [n']) u' f := by
  obtain ⟨-, ⟨bs, hbs⟩, x, m, hs, hx⟩ := hv.file hl hf
  have hsu := Kernel.slot_keepsDirs hG.dirs hs
  have hsrc : u.get (d ++ [n] ++ f.2) = t.get (d ++ [n] ++ f.2) := hw.2
  have hfile : u.get (x ++ [m]) = some (.file bs) := by rw [hx, hsrc, hbs]
  have hrm : ∃ u', k.remove_file u f.1 = .ok u' := by
    unfold Kernel.remove_file
    rw [hsu]
    simp only [hfile]
    exact ⟨_, rfl⟩
  obtain ⟨u', hu'⟩ := hrm
  obtain ⟨y, z, e, hs₁, -, -, hget⟩ := Kernel.remove_file_spec hu'
  rw [hsu] at hs₁
  cases hs₁
  rw [hx] at hget
  refine ⟨u', hu', fun y _ hy => ?_, ?_, ?_⟩
  · rw [hget, if_neg hy]
  · rw [hget, if_neg fun heq => hv.apart.incomparable _ _ heq.symm, hw.1]
  · rw [hget, if_pos rfl]
    rfl

/-! ## The workers -/

/-- The call gets through, unless it is a rename that is refused and can fall back. -/
def Lets (w : Worker) (f : Fault) : Prop :=
  f = .none ∨ ∃ task e, w = .rename task ∧ f.errno = some e ∧ falls_back e = true

/-- What is known of the tree while the workers are at it. -/
structure Carrying (k : Kernel) (op : Op) (t : FileTree Bytes) (d : Loc) (n : String) (d' : Loc)
    (n' : String) (l : Listing) (u : FileTree Bytes) (ws : List Worker) (next : Nat) : Prop where
  going : Going k t d' n' l u
  parting : Parting t (d ++ [n]) (d' ++ [n']) u
  books : Pool.Books Worker.idx .stopped (carry_terms op t (d ++ [n]) (d' ++ [n']) u) l.files ws
    next 0

/-- A worker goes on with its file, whose places alone have changed. -/
theorem Carrying.hold (hv : Vacant k t src dst d n d' n') (hl : IsListing k t src l)
    {ws : List Worker} {next i idx : Nat} {w w' : Worker}
    (h : Carrying k op t d n d' n' l u ws next) (hw : ws[i]? = some w) (hi : w.idx = some idx)
    (hf : l.files[idx]? = some f) (hi' : w'.idx = some idx)
    (hO : Only (d ++ [n]) (d' ++ [n']) f.2 u u')
    (hs : u'.get (d ++ [n] ++ f.2) = u.get (d ++ [n] ++ f.2) ∨ u'.get (d ++ [n] ++ f.2) = none)
    (hb : w'.Brings op t (d ++ [n]) (d' ++ [n']) u' f) :
    Carrying k op t d n d' n' l u' (ws.set i w') next where
  going := hO.going hv hl (List.mem_of_getElem? hf) h.going hs
  parting := hO.parting hv hl (List.mem_of_getElem? hf) h.parting
  books := h.books.hold hw hi hf hi' rfl (Nat.le_refl 0) hb trivial
    fun _ _ hm hg => hO.keeps hv.apart (rel_ne hl hf hg hm)

/-- The file a worker has. -/
theorem Carrying.file {ws : List Worker} {next i idx : Nat} {w : Worker}
    (h : Carrying k op t d n d' n' l u ws next) (hw : ws[i]? = some w) (hi : w.idx = some idx)
    (hf : l.files[idx]? = some f) : w.Brings op t (d ++ [n]) (d' ++ [n']) u f := by
  obtain ⟨-, g, hg, hheld⟩ := h.books.held i w idx hw hi
  rw [hf, Option.some.injEq] at hg
  exact hg ▸ hheld

/-- A worker that goes on without touching the tree. -/
theorem Carrying.stay (hv : Vacant k t src dst d n d' n') (hl : IsListing k t src l)
    {ws : List Worker} {next i idx : Nat} {w w' : Worker}
    (h : Carrying k op t d n d' n' l u ws next) (hw : ws[i]? = some w) (hi : w.idx = some idx)
    (hf : l.files[idx]? = some f) (hi' : w'.idx = some idx)
    (hb : w'.Brings op t (d ++ [n]) (d' ++ [n']) u f) :
    Carrying k op t d n d' n' l u (ws.set i w') next :=
  h.hold hv hl hw hi hf hi' (fun _ _ _ => rfl) (.inl rfl) hb

/-- **One call of a worker.** None fails, and each does its part. -/
theorem Carrying.work (hv : Vacant k t src dst d n d' n') (hl : IsListing k t src l) {r : Runner}
    (hop : r.op = op) (hdst : r.dst = dst) (htail : r.dst_tail = .none) {ws : List Worker}
    {next i : Nat} {w : Worker} {c : Fault} {y : FileTree Bytes × Job × Nat × Nat × Worker}
    (h : Carrying k op t d n d' n' l u ws next) (hw : ws[i]? = some w) (hc : Lets w c)
    (hy : Runner.WorkCase k u r l next 0 c w y) :
    y.2.2.2.1 = 0 ∧ y.2.1.error = r.job.error ∧
      Carrying k op t d n d' n' l y.1 (ws.set i y.2.2.2.2) y.2.2.1 := by
  subst hop hdst
  -- no target has anything behind its last name
  have hplain := Runner.target_tail_of_none htail
  cases hy with
  | drained hnone =>
      exact ⟨rfl, rfl, h.going, h.parting, h.books.drained hw rfl rfl hnone⟩
  | taken g hf =>
      exact ⟨rfl, rfl, h.going, h.parting, h.books.taken hw rfl hf rfl rfl id⟩
  | measured idx sf rel hf =>
      have hwait := h.file hw rfl hf
      exact ⟨rfl, rfl, h.stay hv hl hw rfl hf rfl hwait⟩
  | announced task sf rel hf =>
      refine ⟨rfl, rfl, ?_⟩
      have hwait := h.file hw rfl hf
      have hfirst : r.first task = .rename task ∧ r.op = .move ∨ r.first task = .copy task := by
        unfold Runner.first
        split
        · rename_i hm
          exact .inl ⟨rfl, hm.1⟩
        · exact .inr rfl
      rcases hfirst with ⟨he, hmove⟩ | he
      · simp only [he]
        exact h.stay hv hl hw rfl hf rfl ⟨hmove, hwait⟩
      · simp only [he]
        exact h.stay hv hl hw rfl hf rfl hwait
  | renamed task sf rel u' hf hr =>
      obtain ⟨hmove, hwait⟩ := h.file hw rfl hf
      have hmem := List.mem_of_getElem? hf
      obtain ⟨-, s, e, hs, he, hget⟩ := h.going.renamed hv.apart hl hmem hr
      rw [plain_entry hv.apart hl hv.plain hmem] at hs
      obtain rfl := Option.some.inj hs
      refine ⟨rfl, rfl, h.hold (f := (sf, rel)) hv hl hw rfl hf rfl ?_ (.inr ?_) ?_⟩
      · intro x hx hxs
        rw [hget, if_neg hx, if_neg hxs]
      · rw [hget, if_neg (hv.apart.incomparable _ _), if_pos rfl]
      · refine ⟨?_, ?_⟩
        · rw [hget, if_pos rfl, he]
        · rw [hget, if_neg (hv.apart.incomparable _ _), if_pos rfl, if_pos hmove]
  | unrenamed task sf rel e hf hr =>
      obtain ⟨-, hwait⟩ := h.file hw rfl hf
      rw [hplain, Fault.rename_at_none] at hr
      -- whoever refuses it, there is something to fall back to
      have hfall : falls_back e = true := by
        rcases hc with rfl | ⟨-, e', -, he', hfb⟩
        · rw [hwait.renamed hv hl (List.mem_of_getElem? hf) h.going hr]
          rfl
        · simp only [rename, he'] at hr
          rwa [← Except.error.inj hr]
      simp only [hfall, if_true]
      exact ⟨trivial, trivial, h.stay hv hl hw rfl hf rfl hwait⟩
  | copied task sf rel u' m hf hcp =>
      have hwait : Waiting t (d ++ [n]) (d' ++ [n']) u (sf, rel) := h.file hw rfl hf
      obtain rfl : c = .none := hc.resolve_right (by simp)
      rw [hplain, Fault.copy_file_at_none] at hcp
      obtain ⟨-, hO, hland⟩ := hwait.copied hv hl (List.mem_of_getElem? hf) h.going
      rw [hcp] at hO hland
      have hsrc : u'.get (d ++ [n] ++ rel) = u.get (d ++ [n] ++ rel) :=
        (show _ = t.get _ from hland.2).trans hwait.1.symm
      refine ⟨rfl, rfl, ?_⟩
      by_cases hmove : r.op = .move
      · simp only [hmove, if_true] at h ⊢
        exact h.hold hv hl hw rfl hf rfl hO (.inl hsrc) ⟨rfl, hland⟩
      · simp only [if_neg hmove]
        refine h.hold hv hl hw rfl hf rfl hO (.inl hsrc) ⟨hland.1, ?_⟩
        rw [if_neg hmove]
        exact hland.2
  | uncopied task sf rel u' e hf hcp =>
      have hwait : Waiting t (d ++ [n]) (d' ++ [n']) u (sf, rel) := h.file hw rfl hf
      obtain rfl : c = .none := hc.resolve_right (by simp)
      rw [hplain, Fault.copy_file_at_none] at hcp
      obtain ⟨⟨m, hok⟩, -⟩ := hwait.copied hv hl (List.mem_of_getElem? hf) h.going
      rw [hcp] at hok
      cases hok
  | removed task sf rel u' hf hr =>
      obtain ⟨hmove, hland⟩ := h.file hw rfl hf
      obtain ⟨u'', hu'', hO, hland'⟩ := hland.removed hv hl (List.mem_of_getElem? hf) h.going
      obtain rfl : u'' = u' := Except.ok.inj ((remove_file_ok hu'').symm.trans hr)
      refine ⟨rfl, rfl, h.hold hv hl hw rfl hf rfl hO (.inr hland'.2) ?_⟩
      rw [hmove]
      exact hland'
  | unremoved task sf rel e hf hr =>
      obtain ⟨-, hland⟩ := h.file hw rfl hf
      obtain rfl : c = .none := hc.resolve_right (by simp)
      obtain ⟨u'', hu'', -⟩ := hland.removed hv hl (List.mem_of_getElem? hf) h.going
      rw [hu''] at hr
      cases hr
  | reported task ok =>
      refine ⟨rfl, rfl, h.going, h.parting, ?_⟩
      refine h.books.reported hw rfl rfl (by simp) (Nat.le_refl 0) fun f _ hh => .inr ?_
      cases ok with
      | true => exact hh
      | false => exact False.elim hh
  | failed task err =>
      obtain ⟨-, g, -, hheld⟩ := h.books.held i _ task.idx hw rfl
      exact False.elim hheld
  | noted task err e =>
      obtain ⟨-, g, -, hheld⟩ := h.books.held i _ task.idx hw rfl
      exact False.elim hheld

/-! ## Before and after -/

/-- Once the directories are made every file waits. -/
theorem Laying.carrying (hv : Vacant k t src dst d n d' n') (hl : IsListing k t src l)
    (h : Laying t d' n' l l.dirs.length u) {c : Nat} (hc : 0 < c) :
    Carrying k op t d n d' n' l u (List.replicate c .idle) 0 where
  going := h.going
  parting := h.parting hv.apart hl hv.plain
  books := by
    refine Pool.Books.start hc rfl (by simp) (fun f hf => ⟨h.unmoved hv.apart f, ?_⟩)
      fun _ _ => trivial
    rcases h.under f.2 with hu | ⟨-, rel, hrel, hp⟩
    · rw [hu, hv.none]
    · exact absurd hp ((hl.leaf hf).2 rel hrel)

/-- The next directory can be made. -/
theorem Laying.makes (hv : Vacant k t src dst d n d' n') {m : Nat} {rel : List String}
    (h : Laying t d' n' l m u) : (create_dir_all k u (dst.down rel) .none).2 = none := by
  obtain ⟨q, rfl, hq, hd⟩ := Kernel.slot_spec hv.dst_slot
  have hpass : u.Passable d' (n' :: rel) := by
    intro s hs hsr
    obtain ⟨x, s, rfl⟩ := List.exists_cons_of_ne_nil hs
    obtain ⟨rfl, -⟩ := List.cons_prefix_cons.mp hsr
    rw [← List.singleton_append, ← List.append_assoc]
    rcases h.under s with hu | ⟨hu, -⟩
    · exact .inr (hu.trans (hv.none s))
    · exact .inl hu
  obtain ⟨u', hu', -⟩ := Kernel.create_dir_all_below
    (Kernel.stat_extends h.grows.extends hq) (h.grows.extends _ _ hd) hpass
  rw [Path.child_down]
  exact congrArg Prod.snd hu'

/-- Every entry of the source is listed as what it is. -/
theorem listed_below (hv : Vacant k t src dst d n d' n') (hl : IsListing k t src l)
    {r : List String} {e : Entry Bytes} (hr : t.get (d ++ [n] ++ r) = some e) :
    (e = .dir ∧ r ∈ l.dirs) ∨ ∃ p, (p, r) ∈ l.files := by
  obtain ⟨e₀, he₀⟩ := Option.ne_none_iff_exists'.mp hv.src_there
  obtain ⟨fuel, vs, hwalk, rfl⟩ := hl.walk
  obtain ⟨us, hus, hlists⟩ := walk_spec (Names.of_slot hv.src_slot he₀ hv.plain) hv.plain hwalk
  cases hus
  obtain ⟨⟨p, r', o⟩, hmem, hrel⟩ := hlists.complete r e hr
  obtain ⟨s, e', -, hrel', he', hleaf⟩ := hlists.sound _ hmem
  obtain rfl : r' = r := by simpa using hrel
  obtain rfl : r' = s := by simpa using hrel'
  rw [hr, Option.some.injEq] at he'
  subst he'
  obtain rfl : o = leafOf e := hleaf
  cases e with
  | dir => exact .inl ⟨rfl, mem_dirs.mpr ⟨p, hmem⟩⟩
  | file bs => exact .inr ⟨p, mem_files.mpr ⟨_, hmem⟩⟩
  | symlink tgt => exact .inr ⟨p, mem_files.mpr ⟨_, hmem⟩⟩

/-- What is below the destination once every file has landed. -/
theorem carried_below (hv : Vacant k t src dst d n d' n') (hl : IsListing k t src l)
    (hG : Going k t d' n' l u) (hP : Parting t (d ++ [n]) (d' ++ [n']) u)
    (hall : ∀ f ∈ l.files, Landed op t (d ++ [n]) (d' ++ [n']) u f) (r : List String) :
    u.get (d' ++ [n'] ++ r) = t.get (d ++ [n] ++ r) := by
  cases hr : t.get (d ++ [n] ++ r) with
  | none =>
      by_contra hne
      exact hP.under r hne hr
  | some e =>
      rcases listed_below hv hl hr with ⟨rfl, hdir⟩ | ⟨p, hf⟩
      · exact hG.made r hdir
      · exact (hall _ hf).1.trans hr

/-- In a copy nothing has become of the source. -/
theorem copied_above (hv : Vacant k t src dst d n d' n') (hl : IsListing k t src l)
    (hG : Going k t d' n' l u) (hall : ∀ f ∈ l.files, Landed .copy t (d ++ [n]) (d' ++ [n']) u f)
    (r : List String) : u.get (d ++ [n] ++ r) = t.get (d ++ [n] ++ r) := by
  cases hr : t.get (d ++ [n] ++ r) with
  | none =>
      have hout : ¬ d' ++ [n'] <+: d ++ [n] ++ r := fun ⟨z, hz⟩ =>
        hv.apart.incomparable r z hz.symm
      rcases hG.outside _ hout with hu | hu
      · rw [hu, hr]
      · exact hu
  | some e =>
      rcases listed_below hv hl hr with ⟨rfl, hdir⟩ | ⟨p, hf⟩
      · exact hG.dirs.get_dir hr
      · exact (hall _ hf).2.trans hr

/-- **What a copy leaves.** -/
theorem carried_copy (hv : Vacant k t src dst d n d' n') (hl : IsListing k t src l)
    (hG : Going k t d' n' l u) (hP : Parting t (d ++ [n]) (d' ++ [n']) u)
    (hall : ∀ f ∈ l.files, Landed .copy t (d ++ [n]) (d' ++ [n']) u f) :
    Carried .copy t (d ++ [n]) (d' ++ [n']) u := by
  intro x
  by_cases hx : d' ++ [n'] <+: x
  · obtain ⟨r, rfl⟩ := hx
    rw [if_pos (List.prefix_append _ _), List.drop_left]
    exact carried_below hv hl hG hP hall r
  · rw [if_neg hx, if_neg fun hc => absurd hc.1 (by decide)]
    by_cases hxs : d ++ [n] <+: x
    · obtain ⟨r, rfl⟩ := hxs
      exact copied_above hv hl hG hall r
    · exact hP.elsewhere x hx hxs

/-- **What a move leaves**, once the rest of the source is removed. -/
theorem carried_move (hv : Vacant k t src dst d n d' n') (hl : IsListing k t src l)
    (hG : Going k t d' n' l u) (hP : Parting t (d ++ [n]) (d' ++ [n']) u)
    (hall : ∀ f ∈ l.files, Landed .move t (d ++ [n]) (d' ++ [n']) u f) :
    Carried .move t (d ++ [n]) (d' ++ [n']) (remove_dir_all k u src .none).1 := by
  have hover : ∀ f ∈ l.files, Over t (d ++ [n]) (d' ++ [n']) u f := hall
  intro x
  rw [removed_get hv.apart hl hv.plain hG hover]
  by_cases hx : d' ++ [n'] <+: x
  · obtain ⟨r, rfl⟩ := hx
    rw [if_neg (hv.apart.not_below r), if_pos (List.prefix_append _ _), List.drop_left]
    exact carried_below hv hl hG hP hall r
  · rw [if_neg hx]
    by_cases hxs : d ++ [n] <+: x
    · rw [if_pos hxs, if_pos ⟨rfl, hxs⟩]
    · rw [if_neg hxs, if_neg fun hc => hxs hc.2]
      exact hP.elsewhere x hx hxs

end

/-! ## The run -/

/-- The call gets through: nothing fails but renames, that of the whole or those of
files, and those so that the job falls back to another way. -/
def Passes (s : FileTree Bytes × Runner) : Event → Prop
  | .walk _ => True
  | .main f => f = .none ∨ ∃ l, s.2.phase = .renaming l
  | .worker i f => ∀ l ws next failed w, s.2.phase = .working l ws next failed →
      ws[i]? = some w → Lets w f

/-- What holds in each phase. -/
def CarryAt (k : Kernel) (op : Op) (t : FileTree Bytes) (src : Path) (d : Loc) (n : String) (d' : Loc)
    (n' : String) (u : FileTree Bytes) (status : Status) : Phase → Prop
  | .queued => u = t
  | .walking => u = t
  | .checking l => u = t ∧ IsListing k t src l
  | .renaming l => u = t ∧ IsListing k t src l ∧ op = .move
  | .making l m => IsListing k t src l ∧ m ≤ l.dirs.length ∧ Laying t d' n' l m u
  | .working l ws next failed => IsListing k t src l ∧ failed = 0 ∧
      Carrying k op t d n d' n' l u ws next
  | .cleaning l failed => IsListing k t src l ∧ failed = 0 ∧ Going k t d' n' l u ∧
      Parting t (d ++ [n]) (d' ++ [n']) u ∧
      ∀ f ∈ l.files, Landed op t (d ++ [n]) (d' ++ [n']) u f
  | .ending => Carried op t (d ++ [n]) (d' ++ [n']) u
  | .finished => Carried op t (d ++ [n]) (d' ++ [n']) u ∧ status = .done

/-- The invariant of a transfer in which nothing fails. -/
structure Carry (k : Kernel) (op : Op) (t : FileTree Bytes) (src dst : Path) (d : Loc) (n : String)
    (d' : Loc) (n' : String) (s : FileTree Bytes × Runner) : Prop where
  src_eq : s.2.src = src
  dst_eq : s.2.dst = dst
  tails : s.2.src_tail = .none ∧ s.2.dst_tail = .none
  op_eq : s.2.op = op
  crew : 0 < s.2.nthreads
  error : s.2.job.error = none
  phase : CarryAt k op t src d n d' n' s.1 s.2.job.status s.2.phase

/-- The transfer has ended well. -/
def Arrived (op : Op) (t : FileTree Bytes) (S D : Loc) (s : FileTree Bytes × Runner) : Prop :=
  s.2.phase = .finished ∧ s.2.job.status = .done ∧ s.2.job.error = none ∧ Carried op t S D s.1

section

variable {k : Kernel} {t u u' : FileTree Bytes} {src dst : Path} {d d' : Loc} {n n' : String}
variable {l : Listing} {op : Op}

/-- The walk of the source meets no error. -/
theorem Vacant.walks (hv : Vacant k t src dst d n d' n') {fuel : Nat} {e : Errno} :
    walk_files k t fuel src ≠ some (.error e) := by
  intro hw
  obtain ⟨e₀, he₀⟩ := Option.ne_none_iff_exists'.mp hv.src_there
  obtain ⟨r, hr, hmap⟩ := Option.map_eq_some_iff.mp hw
  obtain ⟨vs, rfl, -⟩ := walk_spec (Names.of_slot hv.src_slot he₀ hv.plain) hv.plain hr
  cases hmap

theorem carry_step (hop : op ≠ .delete) (hv : Vacant k t src dst d n d' n')
    {s s' : FileTree Bytes × Runner} {e : Event} (h : Carry k op t src dst d n d' n' s)
    (he : Passes s e) (hs : alone k s e = some s') : Carry k op t src dst d n d' n' s' := by
  obtain ⟨u, r⟩ := s
  obtain ⟨hsrc, hdst, htails, hopr, hcrew, herr, hat⟩ := h
  -- whatever the step is, the job's own data stay
  have hinv : ∀ (u' : FileTree Bytes) (p : Phase) (job : Job), job.error = none →
      CarryAt k op t src d n d' n' u' job.status p →
      Carry k op t src dst d n d' n' (u', { r with phase := p, job := job }) :=
    fun u' p job hj hp => ⟨hsrc, hdst, htails, hopr, hcrew, hj, hp⟩
  dsimp only at hsrc hdst htails hopr hcrew herr hat
  cases Runner.step_cases hs with
  | started f hp =>
      rw [hp] at hat
      exact hinv _ _ _ herr hat
  | unwalked ev e' hp =>
      exfalso
      replace hp : r.phase = .walking := hp
      rw [hp] at hat
      obtain rfl : u = t := hat
      cases e with
      | walk fuel =>
          simp only [alone, Runner.step, hp, hsrc, htails.1, walk_from_none] at hs
          split at hs
          · cases hs
          · rename_i e'' hw
            exact hv.walks hw
          · have hphase := congrArg (fun s => s.2.phase) (Option.some.inj hs)
            cases hphase
      | main f =>
          rcases he with rfl | ⟨l, hl⟩
          · simp [alone, Runner.step, hp, Fault.errno] at hs
          · rw [hp] at hl
            cases hl
      | worker i f => simp only [alone, Runner.step, hp, reduceCtorEq] at hs
  | walked fuel l hp hwalk =>
      rw [hp] at hat
      obtain rfl : u = t := hat
      exact hinv _ _ _ herr ⟨rfl, fuel, hsrc ▸ hwalk⟩
  | checked_fast f l hp hopm hsd hx =>
      rw [hp] at hat
      exact hinv _ _ r.job herr ⟨hat.1, hat.2, hopr.symm.trans hopm⟩
  | checked_slow f l hp =>
      rw [hp] at hat
      obtain ⟨rfl, hl⟩ := hat
      exact hinv _ _ r.job herr ⟨hl, Nat.zero_le _, laying_start⟩
  | renamed_tree f l u' hp hr =>
      rw [hp] at hat
      obtain ⟨rfl, hl, hmove⟩ := hat
      refine hinv _ _ _ herr ⟨fun x => ?_, rfl⟩
      rw [hsrc, hdst] at hr
      obtain ⟨x₁, m₁, x₂, m₂, e₀, h₁, h₂, -, -, -, hcase⟩ := Kernel.rename_spec hr
      rw [hv.src_slot] at h₁
      rw [hv.dst_slot] at h₂
      cases h₁
      cases h₂
      rcases hcase with ⟨heq, -⟩ | ⟨-, -, -, -, hget⟩
      · exact absurd heq hv.apart.other
      · rw [hget]
        simp only [hmove, true_and]
  | unrenamed_tree f l hp =>
      rw [hp] at hat
      obtain ⟨rfl, hl, -⟩ := hat
      exact hinv _ _ r.job herr ⟨hl, Nat.zero_le _, laying_start⟩
  | made f l m rel hp hm =>
      rw [hp] at hat
      obtain ⟨hl, -, hL⟩ := hat
      replace hp : r.phase = .making l m := hp
      obtain rfl : f = .none := he.resolve_right (by simp [hp])
      have hok : (create_dir_all k u (dst.down rel) .none).2 = none := hL.makes hv
      have hL' := hL.step hv.apart hl hm hok
      rw [← hdst, ← @Fault.create_dir_all_at_none k u (r.dst.down rel) .none,
        ← Runner.target_tail_of_none htails.2 rel] at hL'
      refine hinv _ _ _ ?_ ⟨hl, (List.getElem?_eq_some_iff.mp hm).1, hL'⟩
      split
      · exact herr
      · exact herr
  | spawned f l m hp hm =>
      rw [hp] at hat
      obtain ⟨hl, hle, hL⟩ := hat
      obtain rfl : m = l.dirs.length := Nat.le_antisymm hle (List.getElem?_eq_none_iff.mp hm)
      exact hinv _ _ r.job herr ⟨hl, rfl, hL.carrying hv hl hcrew⟩
  | worked i f l ws next failed worker y hp hwk hy =>
      rw [hp] at hat
      obtain ⟨hl, rfl, hC⟩ := hat
      have hlets : Lets worker f := he l ws next 0 worker hp hwk
      obtain ⟨hfail, herr', hC'⟩ := hC.work hv hl hopr hdst htails.2 hwk hlets hy
      exact hinv _ _ _ (herr'.trans herr) ⟨hl, hfail, hC'⟩
  | joined f l ws next failed hp hws =>
      rw [hp] at hat
      obtain ⟨hl, rfl, hC⟩ := hat
      refine hinv _ _ r.job herr ⟨hl, rfl, hC.going, hC.parting, fun g hg => ?_⟩
      exact hC.books.over rfl hws hg
  | cleaned f l hp hopm =>
      rw [hp] at hat
      obtain ⟨hl, -, hG, hP, hall⟩ := hat
      replace hp : r.phase = .cleaning l 0 := hp
      obtain rfl : f = .none := he.resolve_right (by simp [hp])
      obtain rfl : op = .move := hopr.symm.trans hopm
      refine hinv _ _ r.job herr ?_
      rw [hsrc, htails.1, remove_dir_all_at_none]
      exact carried_move hv hl hG hP hall
  | kept f l failed hp hnc =>
      rw [hp] at hat
      obtain ⟨hl, rfl, hG, hP, hall⟩ := hat
      have hcopy : op = .copy := by
        cases op with
        | move => exact absurd ⟨hopr, rfl⟩ hnc
        | copy => rfl
        | delete => exact absurd rfl hop
      subst hcopy
      exact hinv _ _ r.job herr (carried_copy hv hl hG hP hall)
  | ended f hp =>
      rw [hp] at hat
      exact hinv _ _ _ herr ⟨hat, rfl⟩

end

/-! ## It ends -/

/-- How many calls a worker is from having nothing, and from stopping. -/
def Worker.weight : Worker → Nat
  | .idle => 1
  | .measure _ => 9
  | .announce _ => 8
  | .rename _ => 7
  | .copy _ => 6
  | .remove _ => 5
  | .fail _ _ => 4
  | .note _ _ => 3
  | .report _ _ => 2
  | .stopped => 0

/-- What a transfer has left to do: the phases to come, and the calls in this one. -/
def calls_left (s : FileTree Bytes × Runner) : Nat × Nat :=
  match s.2.phase with
  | .queued => (8, 0)
  | .walking => (7, 0)
  | .checking _ => (6, 0)
  | .renaming _ => (5, 0)
  | .making l m => (4, l.dirs.length - m)
  | .working l ws next _ => (3, 9 * (l.files.length - next) + (ws.map Worker.weight).sum)
  | .cleaning _ _ => (2, 0)
  | .ending => (1, 0)
  | .finished => (0, 0)

section

variable {k : Kernel} {t u u' : FileTree Bytes} {src dst : Path} {d d' : Loc} {n n' : String}
variable {l : Listing} {op : Op}

/-- A worker's call brings it on, whatever it comes to. -/
theorem work_lighter {r : Runner} {next failed : Nat} {f : Fault} {w : Worker}
    {y : FileTree Bytes × Job × Nat × Nat × Worker}
    (hy : Runner.WorkCase k u r l next failed f w y) :
    9 * (l.files.length - y.2.2.1) + y.2.2.2.2.weight <
      9 * (l.files.length - next) + w.weight := by
  cases hy with
  | drained h =>
      simp only [Worker.weight]
      omega
  -- a number off the list is worth more than all the calls for its file
  | taken g h =>
      have hlt := (List.getElem?_eq_some_iff.mp h).1
      simp only [Worker.weight]
      omega
  | measured idx sf rel h => simp [Worker.weight]
  | announced task sf rel h =>
      have hfirst : (r.first task).weight ≤ 7 := by
        unfold Runner.first
        split <;> simp [Worker.weight]
      show 9 * (l.files.length - next) + (r.first task).weight < 9 * (l.files.length - next) + 8
      omega
  | renamed task sf rel t' h hr => simp [Worker.weight]
  | unrenamed task sf rel e h hr =>
      dsimp only
      split <;> simp [Worker.weight]
  | copied task sf rel t' m h hc =>
      dsimp only
      split <;> simp [Worker.weight]
  | uncopied task sf rel t' e h hc => simp [Worker.weight]
  | removed task sf rel t' h hr => simp [Worker.weight]
  | unremoved task sf rel e h hr => simp [Worker.weight]
  | failed task err => simp [Worker.weight]
  | noted task err e => simp [Worker.weight]
  | reported task ok => simp [Worker.weight]

/-- Every step of a transfer, failing or not, leaves less to do. -/
theorem calls_less {s s' : FileTree Bytes × Runner} {e : Event} (hs : alone k s e = some s') :
    Prod.Lex (· < ·) (· < ·) (calls_left s') (calls_left s) := by
  obtain ⟨u, r⟩ := s
  -- the job gets into a later phase
  have left : ∀ {p : Phase} {s' : FileTree Bytes × Runner}, r.phase = p →
      (calls_left s').1 < (calls_left (u, { r with phase := p })).1 →
      Prod.Lex (· < ·) (· < ·) (calls_left s') (calls_left (u, r)) := by
    intro p s' hp hlt
    subst hp
    exact Prod.lex_def.mpr (.inl hlt)
  cases Runner.step_cases hs with
  | worked i f l ws next failed worker y hp hw hy =>
      dsimp only at hp
      simp only [calls_left, hp]
      refine Prod.Lex.right _ ?_
      have hsum := Pool.sum_set Worker.weight y.2.2.2.2 hw
      have hless := work_lighter hy
      omega
  | made f l m rel hp hm =>
      dsimp only at hp
      simp only [calls_left, hp]
      have hlt := (List.getElem?_eq_some_iff.mp hm).1
      exact Prod.Lex.right _ (by omega)
  | started f hp => exact left hp (by simp [calls_left])
  | unwalked ev e' hp => exact left hp (by simp [calls_left])
  | walked fuel l hp hw => exact left hp (by simp [calls_left])
  | checked_fast f l hp hop hsame hx => exact left hp (by simp [calls_left])
  | checked_slow f l hp => exact left hp (by simp [calls_left])
  | renamed_tree f l t' hp hr => exact left hp (by simp [calls_left])
  | unrenamed_tree f l hp => exact left hp (by simp [calls_left])
  | spawned f l m hp hm => exact left hp (by simp [calls_left])
  | joined f l ws next failed hp hws => exact left hp (by simp [calls_left])
  | cleaned f l hp hop => exact left hp (by simp [calls_left])
  | kept f l failed hp hc => exact left hp (by simp [calls_left])
  | ended f hp => exact left hp (by simp [calls_left])

/-! ## It goes on -/

/-- Nothing fails in the call itself. -/
def Event.Clean : Event → Prop
  | .walk _ => True
  | .main f => f = .none
  | .worker _ f => f = .none

/-- A worker that has not stopped can make its call. -/
theorem Runner.work_isSome (k : Kernel) (u : FileTree Bytes) (r : Runner) (l : Listing)
    (next failed : Nat) {w : Worker} (hne : w ≠ .stopped)
    (hidx : ∀ m, w.idx = some m → m < l.files.length) :
    (Runner.work k u r l next failed .none w).isSome = true := by
  have hfile : ∀ m, w.idx = some m → ∃ sf rel, l.files[m]? = some (sf, rel) :=
    fun m hm => ⟨_, _, List.getElem?_eq_getElem (hidx m hm)⟩
  cases w with
  | stopped => exact absurd rfl hne
  | idle =>
      cases hf : l.files[next]? with
      | none => simp [Runner.work, hf]
      | some g => simp [Runner.work, hf]
  | measure m =>
      obtain ⟨sf, rel, hf⟩ := hfile m rfl
      simp [Runner.work, hf]
  | announce task =>
      obtain ⟨sf, rel, hf⟩ := hfile task.idx rfl
      simp [Runner.work, hf]
  | rename task =>
      obtain ⟨sf, rel, hf⟩ := hfile task.idx rfl
      simp only [Runner.work, hf]
      split
      · rfl
      · split <;> rfl
  | copy task =>
      obtain ⟨sf, rel, hf⟩ := hfile task.idx rfl
      simp only [Runner.work, hf]
      split
      · split <;> rfl
      · rfl
  | remove task =>
      obtain ⟨sf, rel, hf⟩ := hfile task.idx rfl
      simp only [Runner.work, hf]
      split <;> rfl
  | fail task err => rfl
  | note task err =>
      obtain ⟨sf, rel, hf⟩ := hfile task.idx rfl
      simp [Runner.work, hf]
  | report task ok => rfl

/-- A job that is not finished can make a call, unless it is in a walk without an end. -/
theorem Runner.goes_on (k : Kernel) (u : FileTree Bytes) (r : Runner) (hp : r.phase ≠ .finished)
    (hwalk : r.phase = .walking → ∃ fuel, walk_files k u fuel r.src ≠ none)
    (hidx : ∀ l ws next failed, r.phase = .working l ws next failed →
      ∀ w ∈ ws, ∀ m, w.idx = some m → m < l.files.length) :
    ∃ e, e.Clean ∧ (Runner.step k u r e).isSome = true := by
  cases hphase : r.phase with
  | finished => exact absurd hphase hp
  | queued => exact ⟨.main .none, rfl, by simp [Runner.step, hphase]⟩
  | walking =>
      obtain ⟨fuel, hw⟩ := hwalk hphase
      refine ⟨.walk fuel, trivial, ?_⟩
      simp only [Runner.step, hphase]
      split
      · rename_i hnone
        exact absurd hnone (walk_from_ne_none hw)
      · rfl
      · rfl
  | checking l =>
      refine ⟨.main .none, rfl, ?_⟩
      simp only [Runner.step, hphase]
      split <;> rfl
  | «renaming» l =>
      refine ⟨.main .none, rfl, ?_⟩
      simp only [Runner.step, hphase]
      split <;> rfl
  | making l m =>
      refine ⟨.main .none, rfl, ?_⟩
      simp only [Runner.step, hphase]
      split <;> rfl
  | working l ws next failed =>
      by_cases hall : ∀ w ∈ ws, w = .stopped
      -- all have stopped, so the join returns
      · have hws : ws.all (fun w => decide (w = .stopped)) = true := by simpa using hall
        exact ⟨.main .none, rfl, by simp only [Runner.step, hphase, hws, if_true, Option.isSome_some]⟩
      -- some worker has not stopped, and it can make its next call
      · simp only [not_forall] at hall
        obtain ⟨w, hmem, hne⟩ := hall
        obtain ⟨i, hi⟩ := List.mem_iff_getElem?.mp hmem
        refine ⟨.worker i .none, rfl, ?_⟩
        simp only [Runner.step, hphase, hi, Option.isSome_map]
        exact Runner.work_isSome k u r l next failed hne (hidx l ws next failed hphase w hmem)
  | cleaning l failed =>
      refine ⟨.main .none, rfl, ?_⟩
      simp only [Runner.step, hphase]
      split <;> rfl
  | ending => exact ⟨.main .none, rfl, by simp [Runner.step, hphase]⟩

/-- A transfer that has not ended can go on, with nothing failing. -/
theorem carry_goes_on (hv : Vacant k t src dst d n d' n') {s : FileTree Bytes × Runner}
    (h : Carry k op t src dst d n d' n' s) :
    Arrived op t (d ++ [n]) (d' ++ [n']) s ∨ ∃ e s', Passes s e ∧ alone k s e = some s' := by
  obtain ⟨u, r⟩ := s
  obtain ⟨hsrc, -, -, -, -, herr, hat⟩ := h
  dsimp only at hsrc herr hat
  by_cases hp : r.phase = .finished
  · rw [hp] at hat
    exact .inl ⟨hp, hat.2, herr, hat.1⟩
  · right
    have hwalk : r.phase = .walking → ∃ fuel, walk_files k u fuel r.src ≠ none := by
      intro hw
      rw [hw] at hat
      obtain rfl : u = t := hat
      obtain ⟨e₀, he₀⟩ := Option.ne_none_iff_exists'.mp hv.src_there
      have hnames := Names.of_slot hv.src_slot he₀ hv.plain
      -- no path of the tree is longer than this
      have hends : walk k u ((u.dom.map List.length).foldr max 0 + 1) src [] ≠ none :=
        walk_ends hnames hv.plain (by omega)
      refine ⟨(u.dom.map List.length).foldr max 0 + 1, fun hnone => hends ?_⟩
      rw [hsrc] at hnone
      exact Option.map_eq_none_iff.mp hnone
    have hidx : ∀ l ws next failed, r.phase = .working l ws next failed →
        ∀ w ∈ ws, ∀ m, w.idx = some m → m < l.files.length := by
      intro l ws next failed hw w hmem m hm
      rw [hw] at hat
      obtain ⟨-, rfl, hC⟩ := hat
      obtain ⟨i, hi⟩ := List.mem_iff_getElem?.mp hmem
      obtain ⟨-, g, hg, -⟩ := hC.books.held i w m hi hm
      exact (List.getElem?_eq_some_iff.mp hg).1
    obtain ⟨e, hclean, he⟩ := Runner.goes_on k u r hp hwalk hidx
    obtain ⟨s', hs'⟩ := Option.isSome_iff_exists.mp he
    refine ⟨e, s', ?_, hs'⟩
    cases e with
    | walk fuel => trivial
    | main f => exact .inl hclean
    | worker i f => exact fun _ _ _ _ _ _ _ => .inl hclean

end

end WebDavs.Mover
