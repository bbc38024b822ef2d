/-
What the walks list.

Where no link leads to a directory the walk sees the tree as it is: every entry
at and below its start once, under the path that names it, and a directory
before everything in it (`walk_spec`). Such a walk ends, whatever the tree
(`walk_ends`).
-/
import WebDavs.Posix.Lasting
import WebDavs.Mover

set_option autoImplicit false

namespace WebDavs.Mover

open WebDavs.Posix WebDavs.Posix.FileTree

/-! ## The entry a path names -/

/-- `p` names the entry at `l`: a directory it leads to, or an entry in its slot
through which it leads to none. -/
def Names (k : Kernel) (t : FileTree Bytes) (p : Path) (l : Loc) : Prop :=
  (k.stat t p = some l ∧ t.get l = some .dir) ∨
    (∃ d n e, l = d ++ [n] ∧ k.slot t p = some (d, n) ∧ t.get l = some e ∧ k.is_dir t p = false)

/-- No link at or below `l` leads to a directory. -/
def Plain (k : Kernel) (t : FileTree Bytes) (l : Loc) : Prop :=
  ∀ d n tgt, l <+: d ++ [n] → t.get (d ++ [n]) = some (.symlink tgt) →
    ¬ t.LeadsToDir k.links d n

theorem Plain.below {k : Kernel} {t : FileTree Bytes} {l : Loc} (h : Plain k t l) (r : List String) :
    Plain k t (l ++ r) := fun d n tgt hp => h d n tgt ((List.prefix_append _ _).trans hp)

theorem linkAt_of_no_links {t : FileTree Bytes} (h : ∀ x ∈ t.dom, t.linkAt x = none) (x : Loc) :
    t.linkAt x = none := by
  cases hl : t.linkAt x with
  | none => rfl
  | some tgt => rw [← hl, h x (t.mem_dom (linkAt_eq_some.mp hl))]

/-- A tree without links is plain everywhere. -/
theorem plain_of_no_links {k : Kernel} {t : FileTree Bytes} (h : ∀ x ∈ t.dom, t.linkAt x = none)
    (l : Loc) : Plain k t l := by
  intro d n tgt _ hg
  have hno := linkAt_of_no_links h (d ++ [n])
  rw [linkAt_eq_some.mpr hg] at hno
  cases hno

theorem Names.dir {k : Kernel} {t : FileTree Bytes} {p : Path} {l : Loc} (h : Names k t p l)
    (hd : t.get l = some .dir) : k.stat t p = some l := by
  rcases h with ⟨hs, -⟩ | ⟨d, n, e, rfl, hslot, -, hnd⟩
  · exact hs
  · obtain ⟨q, rfl, hq, -⟩ := Kernel.slot_spec hslot
    exact Kernel.stat_child_of_get hq hd (by simp)

/-- What is named is there. -/
theorem Names.get {k : Kernel} {t : FileTree Bytes} {p : Path} {l : Loc} (h : Names k t p l) :
    ∃ e, t.get l = some e := by
  rcases h with ⟨-, hd⟩ | ⟨d, n, e, -, -, he, -⟩
  · exact ⟨_, hd⟩
  · exact ⟨e, he⟩

/-- A path names the entry in its slot, unless that is a link to a directory. -/
theorem Names.of_slot {k : Kernel} {t : FileTree Bytes} {p : Path} {d : Loc} {n : String}
    {e : Entry Bytes} (hs : k.slot t p = some (d, n)) (he : t.get (d ++ [n]) = some e)
    (hp : Plain k t (d ++ [n])) : Names k t p (d ++ [n]) := by
  obtain ⟨q, rfl, hq, -⟩ := Kernel.slot_spec hs
  cases e with
  | dir => exact .inl ⟨Kernel.stat_child_of_get hq he (by simp), he⟩
  | file bs =>
      refine .inr ⟨d, n, _, rfl, hs, he, ?_⟩
      rw [Bool.eq_false_iff]
      intro hd
      obtain ⟨x, hx, hxd⟩ := Kernel.is_dir_iff.mp hd
      rw [Kernel.stat_child_of_get hq he (by simp)] at hx
      cases hx
      rw [he] at hxd
      cases hxd
  | symlink tgt =>
      refine .inr ⟨d, n, _, rfl, hs, he, ?_⟩
      rw [Bool.eq_false_iff]
      intro hd
      obtain ⟨x, hx, hxd⟩ := Kernel.is_dir_iff.mp hd
      rw [Kernel.stat_child, hq] at hx
      exact hp d n tgt List.prefix_rfl he ⟨x, hx, hxd⟩

/-- In a directory without links to directories, a name names its entry. -/
theorem Names.child {k : Kernel} {t : FileTree Bytes} {p : Path} {l : Loc} {n : String}
    {e : Entry Bytes} (hs : k.stat t p = some l) (hp : Plain k t l)
    (he : t.get (l ++ [n]) = some e) : Names k t (p.child n) (l ++ [n]) := by
  exact Names.of_slot (Kernel.slot_child_eq_some.mpr ⟨hs, t.get_parent he, rfl⟩) he
    (hp.below [n])

/-- A path that names an entry which is no directory leads to no directory, and
shows the entry. -/
theorem Names.leaf {k : Kernel} {t : FileTree Bytes} {p : Path} {l : Loc} {e : Entry Bytes}
    (h : Names k t p l) (he : t.get l = some e) (hd : e ≠ .dir) :
    k.is_dir t p = false ∧ k.lstat t p = some e := by
  rcases h with ⟨-, hdir⟩ | ⟨d, n, e', rfl, hslot, he', hnd⟩
  · rw [he] at hdir
    exact absurd (Option.some.inj hdir) hd
  · obtain ⟨q, rfl, hq, -⟩ := Kernel.slot_spec hslot
    refine ⟨hnd, ?_⟩
    rw [Kernel.lstat_child, hslot]
    exact he

theorem Names.down {k : Kernel} {t : FileTree Bytes} {p : Path} {l : Loc} {r : List String}
    {e : Entry Bytes} (h : Names k t p l) (hp : Plain k t l) (he : t.get (l ++ r) = some e) :
    Names k t (p.down r) (l ++ r) := by
  induction r using List.reverseRecOn generalizing e with
  | nil => simpa using h
  | append_singleton r n ih =>
      rw [← List.append_assoc] at he ⊢
      have hd := t.get_parent he
      rw [← Path.down_child]
      exact Names.child ((ih hd).dir hd) (hp.below r) he

/-! ## The walk -/

/-- What a walk that has gone well has visited. -/
def collected {β : Type} : Option (Except Errno (List β)) → List β
  | some (.ok vs) => vs
  | _ => []

/-- Walks put together that meet no error are the walks of the names, in their
order. -/
theorem collect_ok {β : Type} {f : String → Option (Except Errno (List β))} {ns : List String}
    {vs : List β} (h : collect (ns.map f) = some (.ok vs)) :
    ∃ g : String → List β, vs = ns.flatMap g ∧ ∀ n ∈ ns, f n = some (.ok (g n)) := by
  refine ⟨fun n => collected (f n), ?_⟩
  induction ns generalizing vs with
  | nil =>
      cases h
      exact ⟨rfl, by simp⟩
  | cons n ns ih =>
      rw [List.map_cons] at h
      cases hn : f n with
      | none =>
          rw [hn] at h
          cases h
      | some r =>
          cases r with
          | error e =>
              rw [hn] at h
              cases h
          | ok us =>
              rw [hn] at h
              obtain ⟨r, hr, hmap⟩ := Option.map_eq_some_iff.mp h
              cases r with
              | error e => cases hmap
              | ok rest =>
                  cases hmap
                  obtain ⟨rfl, hall⟩ := ih hr
                  refine ⟨by rw [List.flatMap_cons, hn]; rfl, ?_⟩
                  intro m hm
                  rcases List.mem_cons.mp hm with rfl | hm
                  · simp only [hn, collected]
                  · exact hall m hm

/-- An error is that of one of the walks. -/
theorem collect_error {β : Type} {ws : List (Option (Except Errno (List β)))} {e : Errno}
    (h : collect ws = some (.error e)) : some (.error e) ∈ ws := by
  induction ws with
  | nil => cases h
  | cons w ws ih =>
      match w, h with
      | some (.error e'), h =>
          cases h
          exact List.mem_cons_self
      | some (.ok us), h =>
          obtain ⟨r, hr, hmap⟩ := Option.map_eq_some_iff.mp h
          cases r with
          | ok rest => cases hmap
          | error e' =>
              cases hmap
              exact List.mem_cons_of_mem _ (ih hr)

/-- What a visit writes down of an entry. -/
def leafOf : Entry Bytes → Option (Entry Bytes)
  | .dir => none
  | e => some e

/-- `vs` lists what is at and below `l`, under paths from `src` and relative
paths from `rel`: everything once, and nothing before the directory it is
in. -/
structure Lists (t : FileTree Bytes) (l : Loc) (src : Path) (rel : List String) (vs : List Visit) :
    Prop where
  sound : ∀ v ∈ vs, ∃ s e, v.path = src.down s ∧ v.rel = rel ++ s ∧ t.get (l ++ s) = some e ∧
    v.leaf = leafOf e
  complete : ∀ s e, t.get (l ++ s) = some e → ∃ v ∈ vs, v.rel = rel ++ s
  ordered : vs.Pairwise fun v w => ¬ w.rel <+: v.rel

/-- **The walk lists the tree.** -/
theorem walk_spec {k : Kernel} {t : FileTree Bytes} {fuel : Nat} {src : Path} {rel : List String}
    {l : Loc} {r : Except Errno (List Visit)} (hn : Names k t src l) (hp : Plain k t l)
    (h : walk k t fuel src rel = some r) : ∃ vs, r = .ok vs ∧ Lists t l src rel vs := by
  induction fuel generalizing src rel l r with
  | zero => cases h
  | succ fuel ih =>
      obtain ⟨e, he⟩ := hn.get
      -- the induction is on the fuel; a directory is listed with what its names lead to,
      -- anything else with itself alone
      by_cases hd : e = .dir
      · subst hd
        have hs := hn.dir he
        simp only [walk, hs, he, if_true] at h
        obtain ⟨r', hr', rfl⟩ := Option.map_eq_some_iff.mp h
        have hsub : ∀ n ∈ t.children l, ∀ r, walk k t fuel (src.child n) (rel ++ [n]) = some r →
            ∃ vs, r = .ok vs ∧ Lists t (l ++ [n]) (src.child n) (rel ++ [n]) vs := by
          intro n hmem r hr
          obtain ⟨e, he⟩ := Option.isSome_iff_exists.mp (mem_children.mp hmem)
          exact ih (Names.child hs hp he) (hp.below [n]) hr
        -- no walk further down fails, so neither does this one
        obtain ⟨us, rfl⟩ : ∃ us, r' = .ok us := by
          cases r' with
          | ok us => exact ⟨us, rfl⟩
          | error e =>
              obtain ⟨n, hmem, hn⟩ := List.mem_map.mp (collect_error hr')
              obtain ⟨vs, hvs, -⟩ := hsub n hmem _ hn
              cases hvs
        obtain ⟨g, rfl, hwalks⟩ := collect_ok hr'
        have hg : ∀ n ∈ t.children l, Lists t (l ++ [n]) (src.child n) (rel ++ [n]) (g n) := by
          intro n hmem
          obtain ⟨vs, hvs, hlists⟩ := hsub n hmem _ (hwalks n hmem)
          cases hvs
          exact hlists
        -- what is listed is there, what is there is listed, and a directory comes before what
        -- is in it
        refine ⟨⟨src, rel, none⟩ :: (t.children l).flatMap g, rfl, ?_, ?_, ?_⟩
        · intro v hv
          rcases List.mem_cons.mp hv with rfl | hv
          · exact ⟨[], .dir, by simp, by simp, by simpa using he, rfl⟩
          · obtain ⟨n, hmem, hv⟩ := List.mem_flatMap.mp hv
            obtain ⟨s, e, h1, h2, h3, h4⟩ := (hg n hmem).sound v hv
            exact ⟨n :: s, e, by rw [h1, Path.child_down], by simpa using h2, by simpa using h3, h4⟩
        · intro s e hse
          -- the entry itself comes first; for anything below, the first name says which walk
          -- lists it
          cases s with
          | nil => exact ⟨_, List.mem_cons_self, by simp⟩
          | cons n s =>
              have hse' : t.get ((l ++ [n]) ++ s) = some e := by simpa using hse
              have hmem : n ∈ t.children l := by
                rw [mem_children]
                by_cases hs0 : s = []
                · simp [hs0] at hse'
                  simp [hse']
                · simp [t.get_above hs0 hse']
              obtain ⟨v, hv, hrel⟩ := (hg n hmem).complete s e hse'
              exact ⟨v, List.mem_cons_of_mem _ (List.mem_flatMap.mpr ⟨n, hmem, hv⟩),
                by simpa using hrel⟩
        · have hrel : ∀ n ∈ t.children l, ∀ v ∈ g n, ∃ s, v.rel = rel ++ n :: s := by
            intro n hmem v hv
            obtain ⟨s, e, -, h2, -, -⟩ := (hg n hmem).sound v hv
            exact ⟨s, by simpa using h2⟩
          refine List.pairwise_cons.mpr ⟨fun w hw => ?_, List.pairwise_flatMap.mpr ⟨?_, ?_⟩⟩
          -- the directory is not below what is in it: its path is shorter
          · obtain ⟨n, hmem, hw⟩ := List.mem_flatMap.mp hw
            obtain ⟨s, hs⟩ := hrel n hmem w hw
            rw [hs]
            intro hpre
            have := hpre.length_le
            simp only [List.length_append, List.length_cons] at this
            omega
          · exact fun n hmem => (hg n hmem).ordered
          · -- what lies under two names of one directory
            refine (t.nodup_children l).imp_of_mem ?_
            intro n m hn hm hne v hv w hw
            obtain ⟨s, hs⟩ := hrel n hn v hv
            obtain ⟨s', hs'⟩ := hrel m hm w hw
            rw [hs, hs', List.prefix_append_right_inj]
            intro hpre
            exact hne (List.cons_prefix_cons.mp hpre).1.symm
      · obtain ⟨hnd, hlstat⟩ := hn.leaf he hd
        have hwalk : walk k t (fuel + 1) src rel = some (.ok [⟨src, rel, some e⟩]) := by
          cases hs : k.stat t src with
          | none => simp only [walk, hs, hlstat]
          | some m =>
              have hm : t.get m ≠ some .dir := fun hmd => by
                rw [Kernel.is_dir_iff.mpr ⟨m, hs, hmd⟩] at hnd
                cases hnd
              simp only [walk, hs, if_neg hm, hlstat]
        rw [hwalk] at h
        cases h
        have hleaf : leafOf e = some e := by
          cases e with
          | dir => exact absurd rfl hd
          | _ => rfl
        refine ⟨_, rfl, ?_, ?_, List.pairwise_singleton _ _⟩
        · intro v hv
          rw [List.mem_singleton] at hv
          subst hv
          exact ⟨[], e, by simp, by simp, by simpa using he, hleaf.symm⟩
        · intro s e' hs
          -- nothing lies below what is no directory
          by_cases hs0 : s = []
          · exact ⟨_, List.mem_singleton_self _, by simp [hs0]⟩
          · rw [t.get_below hs0 (by rw [he]; exact fun h => hd (Option.some.inj h))] at hs
            cases hs

/-! ## Any walk

Links to directories or not: what a walk lists is there, and it lists the same
whatever fuel it is given. -/

/-- What is listed as no directory is an entry in a directory. -/
theorem slot_of_leaf {k : Kernel} {t : FileTree Bytes} {p : Path} {e : Entry Bytes}
    (h : k.lstat t p = some e) (hd : k.is_dir t p = false) :
    ∃ d n, k.slot t p = some (d, n) ∧ t.get (d ++ [n]) = some e ∧ e ≠ .dir := by
  -- a directory in the slot would be a directory
  have hslot : ∀ d n, k.slot t p = some (d, n) → t.get (d ++ [n]) = some e → e ≠ .dir := by
    rintro d n hs he rfl
    obtain ⟨q, rfl, hq, -⟩ := Kernel.slot_spec hs
    rw [Kernel.is_dir_iff.mpr ⟨_, Kernel.stat_child_of_get hq he (by simp), he⟩] at hd
    cases hd
  rw [Kernel.lstat_eq] at h
  obtain ⟨l, hl, he⟩ := Option.bind_eq_some_iff.mp h
  cases hs : k.slot t p with
  | some s =>
      obtain ⟨d, n⟩ := s
      rw [Kernel.entry_at_of_slot hs] at hl
      cases hl
      exact ⟨d, n, rfl, he, hslot d n hs he⟩
  | none =>
      -- only a name leads to what is no directory
      have hstat := Kernel.entry_at_of_no_slot hl hs
      obtain ⟨e', he', hsym⟩ := Kernel.stat_spec hstat
      rw [he] at he'
      cases he'
      cases e with
      | dir =>
          rw [Kernel.is_dir_iff.mpr ⟨l, hstat, he⟩] at hd
          cases hd
      | symlink tgt => exact absurd rfl (hsym tgt)
      | file bs =>
          obtain ⟨hstart, hf⟩ := Kernel.stat_eq_some.mp hstat
          have hpos : ∃ pos, t.get pos = some .dir ∧ t.follow k.links pos p = some l := by
            by_cases hr : p.root = true
            · refine ⟨[], t.get_root, ?_⟩
              rw [follow_eq] at hf ⊢
              simpa [hr] using hf
            · exact ⟨k.cwd, by simpa [Kernel.start, hr] using hstart, hf⟩
          obtain ⟨pos, hpd, hfp⟩ := hpos
          obtain ⟨q, m, rfl⟩ := eq_child_of_follow hpd hfp he
          rw [Kernel.stat_child] at hstat
          obtain ⟨d, hq, hw⟩ := Option.bind_eq_some_iff.mp hstat
          by_cases hdd : t.get d = some .dir
          · rw [Kernel.slot_child_eq_some.mpr ⟨hq, hdd, rfl⟩] at hs
            cases hs
          · rw [walk_normal, t.get_below (List.cons_ne_nil m []) hdd] at hw
            cases hw

section

variable {k : Kernel} {t : FileTree Bytes} {fuel : Nat} {src : Path} {rel : List String}
variable {vs : List Visit}

/-- What a walk that meets no error comes to: one entry, or a directory and the
walks of the names in it. -/
theorem walk_cases (h : walk k t fuel src rel = some (.ok vs)) :
    (∃ e, vs = [⟨src, rel, some e⟩] ∧ k.lstat t src = some e ∧ k.is_dir t src = false) ∨
      ∃ i l g, fuel = i + 1 ∧ k.stat t src = some l ∧ t.get l = some .dir ∧
        vs = ⟨src, rel, none⟩ :: (t.children l).flatMap g ∧
        ∀ n ∈ t.children l, walk k t i (src.child n) (rel ++ [n]) = some (.ok (g n)) := by
  cases fuel with
  | zero => cases h
  | succ fuel =>
      unfold walk at h
      split at h
      · rename_i l hs
        split at h
        · rename_i hl
          obtain ⟨r, hr, hmap⟩ := Option.map_eq_some_iff.mp h
          cases r with
          | error e => cases hmap
          | ok us =>
              cases hmap
              obtain ⟨g, rfl, hg⟩ := collect_ok hr
              exact .inr ⟨fuel, l, g, rfl, hs, hl, rfl, hg⟩
        · rename_i hl
          split at h
          · rename_i e he
            cases h
            exact .inl ⟨e, rfl, he, by simp [Kernel.is_dir, hs, hl]⟩
          · cases h
      · rename_i hs
        split at h
        · rename_i e he
          cases h
          exact .inl ⟨e, rfl, he, by simp [Kernel.is_dir, hs]⟩
        · cases h

/-- A visit says what is there. -/
theorem walk_sound (h : walk k t fuel src rel = some (.ok vs)) {v : Visit} (hv : v ∈ vs) :
    ∃ s, v.path = src.down s ∧ v.rel = rel ++ s ∧
      (∀ e, v.leaf = some e → k.lstat t v.path = some e ∧ k.is_dir t v.path = false) ∧
      (v.leaf = none → k.is_dir t v.path = true) := by
  induction fuel generalizing src rel vs with
  | zero => cases h
  | succ fuel ih =>
      rcases walk_cases h with ⟨e, rfl, he, hd⟩ | ⟨i, l, g, hi, hs, hl, rfl, hg⟩
      · obtain rfl := List.mem_singleton.mp hv
        refine ⟨[], by simp, by simp, ?_, by simp⟩
        rintro e' he'
        cases he'
        exact ⟨he, hd⟩
      · cases hi
        rcases List.mem_cons.mp hv with rfl | hv
        · exact ⟨[], by simp, by simp, by simp, fun _ => Kernel.is_dir_iff.mpr ⟨l, hs, hl⟩⟩
        · obtain ⟨n, hn, hv⟩ := List.mem_flatMap.mp hv
          obtain ⟨s, h1, h2, h3⟩ := ih (hg n hn) hv
          exact ⟨n :: s, by rw [h1, Path.child_down], by rw [h2]; simp, h3⟩

/-- The first visit is the start of the walk. -/
theorem walk_start (h : walk k t fuel src rel = some (.ok vs)) :
    ∃ v ∈ vs, v.path = src ∧ v.rel = rel := by
  rcases walk_cases h with ⟨e, rfl, -, -⟩ | ⟨i, l, g, -, -, -, rfl, -⟩
  · exact ⟨_, List.mem_cons_self, rfl, rfl⟩
  · exact ⟨_, List.mem_cons_self, rfl, rfl⟩

/-- Nothing is met twice under one relative path. -/
theorem walk_nodup (h : walk k t fuel src rel = some (.ok vs)) : (vs.map Visit.rel).Nodup := by
  induction fuel generalizing src rel vs with
  | zero => cases h
  | succ fuel ih =>
      rcases walk_cases h with ⟨e, rfl, -, -⟩ | ⟨i, l, g, hi, -, -, rfl, hg⟩
      · exact List.nodup_singleton _
      · cases hi
        have hrel : ∀ n ∈ t.children l, ∀ v ∈ g n, ∃ s, v.rel = rel ++ n :: s := by
          intro n hn v hv
          obtain ⟨s, -, hs, -⟩ := walk_sound (hg n hn) hv
          exact ⟨s, by simpa using hs⟩
        rw [List.map_cons, List.nodup_cons, List.map_flatMap]
        refine ⟨fun hmem => ?_, List.nodup_flatMap.mpr ⟨fun n hn => ih (hg n hn), ?_⟩⟩
        · obtain ⟨n, hn, hmem⟩ := List.mem_flatMap.mp hmem
          obtain ⟨v, hv, heq⟩ := List.mem_map.mp hmem
          obtain ⟨s, hs⟩ := hrel n hn v hv
          rw [hs] at heq
          simp at heq
        · -- what lies under two names of one directory
          refine (t.nodup_children l).imp_of_mem fun {n m} hn hm hne => ?_
          intro r hr hr'
          obtain ⟨v, hv, rfl⟩ := List.mem_map.mp hr
          obtain ⟨w, hw, heq⟩ := List.mem_map.mp hr'
          obtain ⟨s, hs⟩ := hrel n hn v hv
          obtain ⟨s', hs'⟩ := hrel m hm w hw
          rw [hs, hs'] at heq
          exact hne (List.cons_eq_cons.mp (List.append_cancel_left heq)).1.symm

/-- Below a directory that is reached without links, a walk meets everything. -/
theorem walk_complete (h : walk k t fuel src rel = some (.ok vs)) {l : Loc}
    (hs : k.stat t src = some l) {r : List String} {e : Entry Bytes}
    (he : t.get (l ++ r) = some e) : ∃ v ∈ vs, v.path = src.down r ∧ v.rel = rel ++ r := by
  induction r generalizing fuel src rel vs l with
  | nil =>
      obtain ⟨v, hv, hp, hr⟩ := walk_start h
      exact ⟨v, hv, by rw [hp, Path.down_nil], by rw [hr, List.append_nil]⟩
  | cons n r ih =>
      have hl : t.get l = some .dir := t.get_above (List.cons_ne_nil n r) he
      rcases walk_cases h with ⟨e', -, -, hd⟩ | ⟨i, l', g, -, hs', -, rfl, hg⟩
      · rw [Kernel.is_dir_iff.mpr ⟨l, hs, hl⟩] at hd
        cases hd
      · rw [hs] at hs'
        cases hs'
        have he' : t.get ((l ++ [n]) ++ r) = some e := by
          rw [List.append_assoc, List.singleton_append]
          exact he
        have hn : n ∈ t.children l := by
          rw [mem_children]
          by_cases hr0 : r = []
          · rw [hr0, List.append_nil] at he'
            rw [he', Option.isSome_some]
          · rw [t.get_above hr0 he', Option.isSome_some]
        have hmeet : ∃ v ∈ g n, v.path = (src.child n).down r ∧ v.rel = (rel ++ [n]) ++ r := by
          by_cases hr0 : r = []
          · subst hr0
            obtain ⟨v, hv, hp, hr⟩ := walk_start (hg n hn)
            exact ⟨v, hv, by rw [hp, Path.down_nil], by rw [hr, List.append_nil]⟩
          · have hn' := t.get_above hr0 he'
            exact ih (hg n hn) (Kernel.stat_child_of_get hs hn' (by simp)) he'
        obtain ⟨v, hv, hp, hr⟩ := hmeet
        refine ⟨v, List.mem_cons_of_mem _ (List.mem_flatMap.mpr ⟨n, hn, hv⟩), ?_, ?_⟩
        · rw [hp, Path.child_down]
        · rw [hr, List.append_assoc, List.singleton_append]

/-- The directory something lies in is met as one. -/
theorem walk_parent (h : walk k t fuel src rel = some (.ok vs)) {v : Visit} (hv : v ∈ vs)
    {s : List String} {m : String} (hr : v.rel = rel ++ (s ++ [m])) :
    ∃ v' ∈ vs, v'.rel = rel ++ s ∧ v'.leaf = none := by
  induction s generalizing fuel src rel vs with
  | nil =>
      rcases walk_cases h with ⟨e, rfl, -, -⟩ | ⟨i, l, g, -, -, -, rfl, -⟩
      · rw [List.mem_singleton.mp hv] at hr
        simp at hr
      · exact ⟨_, List.mem_cons_self, by simp, rfl⟩
  | cons n s ih =>
      rcases walk_cases h with ⟨e, rfl, -, -⟩ | ⟨i, l, g, -, -, -, rfl, hg⟩
      · rw [List.mem_singleton.mp hv] at hr
        simp at hr
      · rcases List.mem_cons.mp hv with rfl | hv
        · simp at hr
        · obtain ⟨m', hm', hv⟩ := List.mem_flatMap.mp hv
          obtain ⟨s', -, hrel, -⟩ := walk_sound (hg m' hm') hv
          -- the name it was met under is the first on its way
          have hn : m' = n := by
            rw [hr, List.append_assoc] at hrel
            have := List.append_cancel_left hrel
            simpa using (List.cons_eq_cons.mp this).1.symm
          subst hn
          obtain ⟨v', hv', hrel', hleaf⟩ := ih (hg m' hm') hv (by rw [hr]; simp)
          exact ⟨v', List.mem_cons_of_mem _ (List.mem_flatMap.mpr ⟨m', hm', hv'⟩),
            by rw [hrel']; simp, hleaf⟩

/-- No directory is reached by more names than a walk has fuel for. -/
theorem walk_depth (h : walk k t fuel src rel = some (.ok vs)) {s : List String}
    (hs : k.is_dir t (src.down s) = true) : s.length < fuel := by
  induction fuel generalizing src rel vs s with
  | zero => cases h
  | succ fuel ih =>
      cases s with
      | nil => exact Nat.succ_pos fuel
      | cons n s =>
          obtain ⟨x, hx, -⟩ := Kernel.is_dir_iff.mp hs
          rw [Kernel.stat_down] at hx
          obtain ⟨l, hl, hwalk⟩ := Option.bind_eq_some_iff.mp hx
          rw [Path.names_cons, walk_normal] at hwalk
          have hn : t.get (l ++ [n]) ≠ none := by
            intro hn
            rw [hn] at hwalk
            cases hwalk
          obtain ⟨e, he⟩ := Option.ne_none_iff_exists'.mp hn
          rcases walk_cases h with ⟨e', -, -, hd⟩ | ⟨i, l', g, hi, hl', -, -, hg⟩
          · rw [Kernel.is_dir_iff.mpr ⟨l, hl, t.get_parent he⟩] at hd
            cases hd
          · cases hi
            cases hl.symm.trans hl'
            rw [← Path.child_down] at hs
            exact Nat.succ_lt_succ (ih (hg n (mem_children.mpr (by rw [he]; rfl))) hs)

end

theorem collect_mono {β : Type} {f g : String → Option (Except Errno (List β))}
    (h : ∀ n r, f n = some r → g n = some r) {ns : List String} {r : Except Errno (List β)}
    (hr : collect (ns.map f) = some r) : collect (ns.map g) = some r := by
  induction ns generalizing r with
  | nil => exact hr
  | cons n ns ih =>
      rw [List.map_cons] at hr ⊢
      cases hf : f n with
      | none =>
          rw [hf] at hr
          cases hr
      | some s =>
          rw [hf] at hr
          rw [h n s hf]
          cases s with
          | error e => exact hr
          | ok us =>
              obtain ⟨r', hr', rfl⟩ := Option.map_eq_some_iff.mp hr
              show (collect (ns.map g)).map _ = _
              rw [ih hr']
              rfl

theorem walk_mono {k : Kernel} {t : FileTree Bytes} {fuel : Nat} {src : Path} {rel : List String}
    {r : Except Errno (List Visit)} (h : walk k t fuel src rel = some r) :
    walk k t (fuel + 1) src rel = some r := by
  induction fuel generalizing src rel r with
  | zero => cases h
  | succ fuel ih =>
      rw [walk] at h ⊢
      cases hs : k.stat t src with
      | none => simpa only [hs] using h
      | some l =>
          simp only [hs] at h ⊢
          by_cases hl : t.get l = some .dir
          · simp only [if_pos hl] at h ⊢
            obtain ⟨r', hr', rfl⟩ := Option.map_eq_some_iff.mp h
            rw [collect_mono (fun n r hn => ih hn) hr']
            rfl
          · simpa only [if_neg hl] using h

/-- What a walk lists does not depend on its fuel. -/
theorem walk_det {k : Kernel} {t : FileTree Bytes} {f g : Nat} {src : Path} {rel : List String}
    {r r' : Except Errno (List Visit)} (h : walk k t f src rel = some r)
    (h' : walk k t g src rel = some r') : r = r' := by
  have hup : ∀ (f i : Nat) (r : Except Errno (List Visit)), walk k t f src rel = some r →
      walk k t (f + i) src rel = some r := by
    intro f i r hf
    induction i with
    | zero => exact hf
    | succ i ih => exact walk_mono ih
  have h₁ := hup f g r h
  have h₂ := hup g f r' h'
  rw [Nat.add_comm, h₁] at h₂
  exact Option.some.inj h₂

/-- The listing a walk of `src` makes, with fuel enough. -/
def IsListing (k : Kernel) (t : FileTree Bytes) (src : Path) (l : Listing) : Prop :=
  ∃ fuel, walk_files k t fuel src = some (.ok l)

theorem IsListing.walk {k : Kernel} {t : FileTree Bytes} {src : Path} {l : Listing}
    (h : IsListing k t src l) :
    ∃ fuel vs, walk k t fuel src [] = some (.ok vs) ∧ l = Listing.of vs := by
  obtain ⟨fuel, hw⟩ := h
  obtain ⟨r, hr, hmap⟩ := Option.map_eq_some_iff.mp hw
  cases r with
  | error e => cases hmap
  | ok vs =>
      cases hmap
      exact ⟨fuel, vs, hr, rfl⟩

theorem IsListing.det {k : Kernel} {t : FileTree Bytes} {src : Path} {l l' : Listing}
    (h : IsListing k t src l) (h' : IsListing k t src l') : l = l' := by
  obtain ⟨f, vs, hw, rfl⟩ := h.walk
  obtain ⟨g, us, hw', rfl⟩ := h'.walk
  cases walk_det hw hw'
  rfl

theorem mem_files {vs : List Visit} {sf : Path} {rel : List String} :
    (sf, rel) ∈ (Listing.of vs).files ↔ ∃ e, (⟨sf, rel, some e⟩ : Visit) ∈ vs := by
  simp only [Listing.of, List.mem_filterMap, Option.map_eq_some_iff, Prod.mk.injEq]
  constructor
  · rintro ⟨⟨p, r, o⟩, hv, e, rfl, rfl, rfl⟩
    exact ⟨e, hv⟩
  · rintro ⟨e, hv⟩
    exact ⟨_, hv, e, rfl, rfl, rfl⟩

theorem mem_dirs {vs : List Visit} {rel : List String} :
    rel ∈ (Listing.of vs).dirs ↔ ∃ p, (⟨p, rel, none⟩ : Visit) ∈ vs := by
  simp only [Listing.of, List.mem_filterMap]
  constructor
  · rintro ⟨⟨p, r, o⟩, hv, hif⟩
    cases o with
    | none =>
        cases hif
        exact ⟨p, hv⟩
    | some e => cases hif
  · rintro ⟨p, hv⟩
    exact ⟨_, hv, rfl⟩

/-- A listed file is an entry, no directory, at its path below the source. -/
theorem IsListing.file {k : Kernel} {t : FileTree Bytes} {src : Path} {l : Listing}
    (h : IsListing k t src l) {sf : Path} {rel : List String} (hf : (sf, rel) ∈ l.files) :
    sf = src.down rel ∧ k.is_dir t sf = false ∧
      ∃ d n e, k.slot t sf = some (d, n) ∧ t.get (d ++ [n]) = some e ∧ e ≠ .dir := by
  obtain ⟨fuel, vs, hw, rfl⟩ := h.walk
  obtain ⟨e, hv⟩ := mem_files.mp hf
  obtain ⟨s, hp, hr, hleaf, -⟩ := walk_sound hw hv
  obtain ⟨he, hd⟩ := hleaf e rfl
  obtain ⟨d, n, hs, hget, hne⟩ := slot_of_leaf he hd
  have hrel : rel = s := by simpa using hr
  exact ⟨hrel ▸ hp, hd, d, n, e, hs, hget, hne⟩

theorem IsListing.dir {k : Kernel} {t : FileTree Bytes} {src : Path} {l : Listing}
    (h : IsListing k t src l) {rel : List String} (hd : rel ∈ l.dirs) :
    k.is_dir t (src.down rel) = true := by
  obtain ⟨fuel, vs, hw, rfl⟩ := h.walk
  obtain ⟨p, hv⟩ := mem_dirs.mp hd
  obtain ⟨s, hp, hr, -, hdir⟩ := walk_sound hw hv
  have hrel : rel = s := by simpa using hr
  have hps : p = src.down s := hp
  rw [hrel, ← hps]
  exact hdir rfl

/-- Where no link leads to a directory, what is listed lies where its relative
path says. -/
theorem IsListing.plain {k : Kernel} {t : FileTree Bytes} {src : Path} {l : Listing} {s : Loc}
    (h : IsListing k t src l) (hn : Names k t src s) (hp : Plain k t s) :
    (∀ f ∈ l.files, ∃ e, t.get (s ++ f.2) = some e ∧ e ≠ .dir ∧ k.lstat t f.1 = some e) ∧
      ∀ rel ∈ l.dirs, t.get (s ++ rel) = some .dir := by
  obtain ⟨fuel, vs, hw, rfl⟩ := h.walk
  obtain ⟨us, hus, hlists⟩ := walk_spec hn hp hw
  cases hus
  refine ⟨?_, ?_⟩
  · rintro ⟨sf, rel⟩ hf
    obtain ⟨e, hv⟩ := mem_files.mp hf
    obtain ⟨r, e', hpath, hrel, he', hleaf⟩ := hlists.sound _ hv
    have hr : rel = r := by simpa using hrel
    subst hr
    cases e' with
    | dir => cases hleaf
    | file bs =>
        refine ⟨_, he', by simp, ?_⟩
        rw [show sf = src.down rel from hpath]
        exact ((hn.down hp he').leaf he' (by simp)).2
    | symlink tgt =>
        refine ⟨_, he', by simp, ?_⟩
        rw [show sf = src.down rel from hpath]
        exact ((hn.down hp he').leaf he' (by simp)).2
  · intro rel hr
    obtain ⟨p, hv⟩ := mem_dirs.mp hr
    obtain ⟨r, e', -, hrel, he', hleaf⟩ := hlists.sound _ hv
    have hrr : rel = r := by simpa using hrel
    subst hrr
    cases e' with
    | dir => exact he'
    | file bs => cases hleaf
    | symlink tgt => cases hleaf

/-- What is in a directory is listed after it. -/
theorem IsListing.parent {k : Kernel} {t : FileTree Bytes} {src : Path} {l : Listing}
    (h : IsListing k t src l) {rel : List String} {m : String}
    (hr : rel ++ [m] ∈ l.files.map Prod.snd ++ l.dirs) : rel ∈ l.dirs := by
  obtain ⟨fuel, vs, hw, rfl⟩ := h.walk
  have hv : ∃ v ∈ vs, v.rel = [] ++ (rel ++ [m]) := by
    rcases List.mem_append.mp hr with hf | hd
    · obtain ⟨⟨sf, r⟩, hf, rfl⟩ := List.mem_map.mp hf
      obtain ⟨e, hv⟩ := mem_files.mp hf
      exact ⟨_, hv, rfl⟩
    · obtain ⟨p, hv⟩ := mem_dirs.mp hd
      exact ⟨_, hv, rfl⟩
  obtain ⟨v, hv, hrel⟩ := hv
  obtain ⟨⟨p, r, o⟩, hv', rfl, rfl⟩ := walk_parent hw hv hrel
  exact mem_dirs.mpr ⟨p, hv'⟩

/-- The first directory listed is the source. -/
theorem IsListing.first_dir {k : Kernel} {t : FileTree Bytes} {src : Path} {l : Listing}
    (h : IsListing k t src l) {rel : List String} (hr : l.dirs[0]? = some rel) : rel = [] := by
  obtain ⟨fuel, vs, hw, rfl⟩ := h.walk
  rcases walk_cases hw with ⟨e, rfl, -, -⟩ | ⟨i, l', g, -, -, -, rfl, -⟩
  · cases hr
  · cases hr
    rfl

/-- The source itself is listed. -/
theorem IsListing.root {k : Kernel} {t : FileTree Bytes} {src : Path} {l : Listing}
    (h : IsListing k t src l) : (src, []) ∈ l.files ∨ [] ∈ l.dirs := by
  obtain ⟨fuel, vs, hw, rfl⟩ := h.walk
  obtain ⟨⟨p, r, o⟩, hv, rfl, rfl⟩ := walk_start hw
  cases o with
  | none => exact .inr (mem_dirs.mpr ⟨_, hv⟩)
  | some e => exact .inl (mem_files.mpr ⟨e, hv⟩)

/-- A walk that ends does not come back to the directory it began with. -/
theorem IsListing.no_return {k : Kernel} {t : FileTree Bytes} {src : Path} {l : Listing}
    (h : IsListing k t src l) (hd : k.is_dir t src = true) {rel : List String}
    (hs : k.stat t (src.down rel) = k.stat t src) : rel = [] := by
  by_contra hne
  obtain ⟨fuel, vs, hw, -⟩ := h.walk
  -- it would come back again and again
  have hback : ∀ i, k.stat t (src.down (List.replicate i rel).flatten) = k.stat t src := by
    intro i
    induction i with
    | zero => rw [List.replicate_zero, List.flatten_nil, Path.down_nil]
    | succ i ih =>
        rw [List.replicate_succ, List.flatten_cons, ← Path.down_down, Kernel.stat_down, hs,
          ← Kernel.stat_down, ih]
  have hlen := walk_depth hw (s := (List.replicate fuel rel).flatten) <| by
    rw [Kernel.is_dir, hback]
    exact hd
  have hpos : 1 ≤ rel.length := List.length_pos_iff.mpr hne
  have := Nat.mul_le_mul_left fuel hpos
  rw [List.length_flatten, List.map_replicate, List.sum_replicate_nat] at hlen
  omega

/-- No file is listed twice. -/
theorem IsListing.nodup {k : Kernel} {t : FileTree Bytes} {src : Path} {l : Listing}
    (h : IsListing k t src l) : (l.files.map Prod.snd).Nodup := by
  obtain ⟨fuel, vs, hw, rfl⟩ := h.walk
  have hn := List.pairwise_map.mp (walk_nodup hw)
  refine List.pairwise_map.mpr (List.pairwise_filterMap.mpr (hn.imp ?_))
  intro v w hvw y hy z hz heq
  obtain ⟨-, -, rfl⟩ := Option.map_eq_some_iff.mp hy
  obtain ⟨-, -, rfl⟩ := Option.map_eq_some_iff.mp hz
  exact hvw heq

/-- Nothing is listed below a file. -/
theorem IsListing.leaf {k : Kernel} {t : FileTree Bytes} {src : Path} {l : Listing}
    (h : IsListing k t src l) {f : Path × List String} (hf : f ∈ l.files) :
    (∀ g ∈ l.files, f.2 <+: g.2 → g = f) ∧ ∀ rel ∈ l.dirs, ¬ f.2 <+: rel := by
  obtain ⟨hsf, hnd, -⟩ := h.file hf
  have hdirs : ∀ rel ∈ l.dirs, ¬ f.2 <+: rel := by
    rintro rel hr ⟨s, rfl⟩
    have hd := h.dir hr
    rw [← Path.down_down] at hd
    rw [hsf, Kernel.is_dir_of_down hd] at hnd
    cases hnd
  refine ⟨fun g hg hp => ?_, hdirs⟩
  rcases List.eq_nil_or_concat g.2 with hnil | ⟨s, m, hs⟩
  · rw [hnil] at hp
    have heq : g.2 = f.2 := by rw [hnil, List.prefix_nil.mp hp]
    exact Prod.ext (by rw [(h.file hg).1, hsf, heq]) heq
  · rw [List.concat_eq_append] at hs
    rw [hs] at hp
    rcases List.prefix_concat_iff.mp hp with heq | hp'
    · have heq : g.2 = f.2 := by rw [hs, heq]
      exact Prod.ext (by rw [(h.file hg).1, hsf, heq]) heq
    · refine absurd hp' (hdirs s (h.parent (m := m) ?_))
      exact List.mem_append_left _ (List.mem_map.mpr ⟨g, hg, hs⟩)

/-! ## Termination -/

/-- Collecting walks that all ended ends. -/
theorem collect_isSome {β : Type} {ws : List (Option (Except Errno (List β)))}
    (h : ∀ w ∈ ws, w ≠ none) : collect ws ≠ none := by
  induction ws with
  | nil => simp [collect]
  | cons w ws ih =>
      match w, h w List.mem_cons_self with
      | some (.error e), _ => simp [collect]
      | some (.ok vs), _ =>
          obtain ⟨r, hr⟩ := Option.ne_none_iff_exists'.mp
            (ih fun u hu => h u (List.mem_cons_of_mem _ hu))
          simp [collect, hr]

/-- Nothing in a tree lies deeper than its deepest listed location. -/
theorem length_le_of_get {t : FileTree Bytes} {l : Loc} {e : Entry Bytes} (h : t.get l = some e) :
    l.length ≤ (t.dom.map List.length).foldr max 0 := by
  have hmem : l.length ∈ t.dom.map List.length := List.mem_map_of_mem (t.mem_dom h)
  generalize t.dom.map List.length = ns at hmem
  induction ns with
  | nil => cases hmem
  | cons n ns ih =>
      rw [List.foldr_cons]
      rcases List.mem_cons.mp hmem with rfl | hmem
      · exact Nat.le_max_left _ _
      · exact Nat.le_trans (ih hmem) (Nat.le_max_right _ _)

/-- **The walk ends**: fuel for the depth of the tree is enough. -/
theorem walk_ends {k : Kernel} {t : FileTree Bytes} {fuel : Nat} {src : Path} {rel : List String}
    {l : Loc} (hn : Names k t src l) (hp : Plain k t l)
    (hf : (t.dom.map List.length).foldr max 0 < fuel + l.length) :
    walk k t fuel src rel ≠ none := by
  induction fuel generalizing src rel l with
  | zero =>
      obtain ⟨e, he⟩ := hn.get
      have := length_le_of_get he
      omega
  | succ fuel ih =>
      obtain ⟨e, he⟩ := hn.get
      by_cases hd : e = .dir
      · subst hd
        have hs := hn.dir he
        simp only [walk, hs, he, if_true]
        have hc : collect ((t.children l).map fun n => walk k t fuel (src.child n) (rel ++ [n]))
            ≠ none := by
          refine collect_isSome fun w hw => ?_
          obtain ⟨n, hmem, rfl⟩ := List.mem_map.mp hw
          obtain ⟨e, he⟩ := Option.isSome_iff_exists.mp (mem_children.mp hmem)
          refine ih (Names.child hs hp he) (hp.below [n]) ?_
          rw [List.length_append, List.length_singleton]
          omega
        simpa using hc
      · obtain ⟨hnd, hlstat⟩ := hn.leaf he hd
        cases hs : k.stat t src with
        | none => simp [walk, hs, hlstat]
        | some m =>
            have hm : t.get m ≠ some .dir := fun hmd => by
              rw [Kernel.is_dir_iff.mpr ⟨m, hs, hmd⟩] at hnd
              cases hnd
            simp [walk, hs, hm, hlstat]

end WebDavs.Mover
