/-
How long a path leads to the same place.

`KeepsDirs` is one answer: a path to a directory keeps its way while no
directory and no link to one is touched. Two more are needed by whoever holds a
path for a while and lets others change the tree. Entries can `Fade`: a link
may be replaced by a file, and then a path through it leads nowhere, but never
somewhere else. And a file put where nothing was is reached by just the paths
that would have created it.
-/
import WebDavs.Posix.Effects

set_option autoImplicit false

namespace WebDavs.Posix

variable {α : Type}

namespace FileTree

/-! ## Links that turn into files -/

/-- In `u` every directory of `t` is still there, and every link, unless a file
has taken its place. -/
def Fades (t u : FileTree α) : Prop :=
  (∀ l, t.get l = some .dir → u.get l = some .dir) ∧
    ∀ l tgt, t.get l = some (.symlink tgt) →
      u.get l = some (.symlink tgt) ∨ ∃ a, u.get l = some (.file a)

theorem Fades.refl (t : FileTree α) : Fades t t := ⟨fun _ h => h, fun _ _ h => .inl h⟩

theorem Fades.extends {t u v : FileTree α} (h : Fades t u) (hx : Extends u v) : Fades t v := by
  refine ⟨fun l hl => hx _ _ (h.1 l hl), fun l tgt hl => ?_⟩
  rcases h.2 l tgt hl with h1 | ⟨a, h1⟩
  · exact .inl (hx _ _ h1)
  · exact .inr ⟨a, hx _ _ h1⟩

/-- Where every directory and every link to one of `t` is in `v` what it is in
`u`, a walk that leads to a directory in `t` and to one in `u` leads to the same
one in all three. -/
theorem Fades.walk {t u v : FileTree α} (hf : Fades t u) {lt lu lv : Loc → Path → Option Loc}
    (hkeep : ∀ d n l, t.walk lt d [.normal n] = some l → t.get l = some .dir →
      v.get (d ++ [n]) = u.get (d ++ [n]))
    (hdir : ∀ l, t.get l = some .dir → v.get l = some .dir)
    (hlink : ∀ d p l l', lt d p = some l → t.get l = some .dir → lu d p = some l' →
      u.get l' = some .dir → l' = l ∧ lv d p = some l)
    {pos l l' : Loc} {cs : List Component} (h : t.walk lt pos cs = some l)
    (hl : t.get l = some .dir) (h' : u.walk lu pos cs = some l') (hl' : u.get l' = some .dir) :
    l' = l ∧ v.walk lv pos cs = some l := by
  induction cs generalizing pos with
  | nil =>
      cases h
      cases h'
      exact ⟨rfl, rfl⟩
  | cons c cs ih =>
      -- a walk that comes to a directory has been in directories only
      have hpos := walk_start_dir h hl
      cases c with
      | curDir =>
          simp only [FileTree.walk, hpos, hdir _ hpos, hf.1 _ hpos, if_true] at h h' ⊢
          exact ih h h'
      | parentDir =>
          simp only [FileTree.walk, hpos, hdir _ hpos, hf.1 _ hpos, if_true] at h h' ⊢
          exact ih h h'
      | normal n =>
          rw [walk_normal] at h
          split at h
          · cases h
          · rename_i tgt hg
            obtain ⟨m, hm, hw⟩ := Option.bind_eq_some_iff.mp h
            have hmd := walk_start_dir hw hl
            have hstep : t.walk lt pos [.normal n] = some m := by
              rw [walk_normal, hg]
              simp only [hm, Option.bind_some, walk_nil]
            rw [walk_normal] at h'
            rcases hf.2 _ _ hg with hu | ⟨a, hu⟩
            · rw [hu] at h'
              obtain ⟨m', hm', hw'⟩ := Option.bind_eq_some_iff.mp h'
              obtain ⟨rfl, hv⟩ := hlink _ _ _ _ hm hmd hm' (walk_start_dir hw' hl')
              rw [walk_normal, hkeep _ _ _ hstep hmd, hu]
              simpa only [hv, Option.bind_some] using ih hw hw'
            · -- the link is a file now: nothing lies behind it
              rw [hu] at h'
              have hend := walk_from_leaf (by simp [hu]) h'
              rw [hend, hu] at hl'
              cases hl'
          · have hnd := walk_start_dir h hl
            have hstep : t.walk lt pos [.normal n] = some (pos ++ [n]) :=
              walk_single hnd (by simp)
            rw [walk_normal, hf.1 _ hnd] at h'
            rw [walk_normal, hkeep _ _ _ hstep hnd, hf.1 _ hnd]
            exact ih h h'

theorem Fades.follow {t u v : FileTree α} (hf : Fades t u) {k j : Nat}
    (hkeep : ∀ d n, t.LeadsToDir k d n → v.get (d ++ [n]) = u.get (d ++ [n])) (hj : j ≤ k)
    {pos l l' : Loc} {p : Path} (h : t.follow j pos p = some l) (hl : t.get l = some .dir)
    (h' : u.follow j pos p = some l') (hl' : u.get l' = some .dir) :
    l' = l ∧ v.follow j pos p = some l := by
  have hdir : ∀ l, t.get l = some .dir → v.get l = some .dir := by
    intro l hd
    rcases List.eq_nil_or_concat l with rfl | ⟨d, n, rfl⟩
    · exact v.get_root
    · rw [List.concat_eq_append] at hd ⊢
      rw [hkeep d n (leadsToDir_of_get hd), hf.1 _ hd]
  rw [follow_eq] at h h' ⊢
  refine hf.walk (fun d n m hw hm => hkeep d n (leadsToDir_of_walk hj hw hm)) hdir ?_ h hl h' hl'
  cases j with
  | zero => exact fun _ _ _ _ hv => by cases hv
  | succ i =>
      exact fun d q m m' hv hm hv' hm' =>
        hf.follow hkeep (Nat.le_of_succ_le hj) hv hm hv' hm'

/-! ## Entries on the way

A path goes on leading where it leads as long as the entries it runs through
stay; whatever else happens to the tree does not matter to it. -/

theorem trailFrom_append (t : FileTree α) (link : Loc → Path → Option Loc)
    (tr : Loc → Path → List Loc) (pos : Loc) (cs ds : List Component) :
    t.trailFrom link tr pos (cs ++ ds) = t.trailFrom link tr pos cs ++
      ((t.aim link pos cs).map fun l => t.trailFrom link tr l ds).getD [] := by
  induction cs generalizing pos with
  | nil => simp [trailFrom, aim]
  | cons c cs ih =>
      cases c with
      | curDir => exact ih pos
      | parentDir => exact ih _
      | normal n =>
          simp only [List.cons_append, trailFrom, aim]
          cases t.linkAt (pos ++ [n]) with
          | none => simp only [ih]
          | some tgt =>
              cases hm : link pos tgt with
              | none => simp [hm]
              | some l => simp [hm, ih]

/-- Names that meet no link run through the places they spell. -/
theorem trailFrom_names {t : FileTree α} {link : Loc → Path → Option Loc}
    {tr : Loc → Path → List Loc} {l r v : Loc}
    (h : ∀ s, s ≠ [] → s <+: r → t.linkAt (l ++ s) = none)
    (hv : v ∈ t.trailFrom link tr l (Path.names r)) : ∃ s, s ≠ [] ∧ s <+: r ∧ v = l ++ s := by
  induction r generalizing l with
  | nil => cases hv
  | cons n r ih =>
      have hn : t.linkAt (l ++ [n]) = none := h [n] (by simp) (by simp)
      rw [Path.names_cons, trailFrom, hn] at hv
      rcases List.mem_cons.mp hv with rfl | hv
      · exact ⟨[n], by simp, by simp, rfl⟩
      · obtain ⟨s, -, hsr, rfl⟩ := ih (fun s _ hsr => by
          have := h (n :: s) (by simp) (by simpa using hsr)
          simpa using this) hv
        exact ⟨n :: s, by simp, by simpa using hsr, by simp⟩

theorem walk_trail {t t' : FileTree α} {link link' at_ : Loc → Path → Option Loc}
    {tr : Loc → Path → List Loc} (hat : ∀ d p l, link d p = some l → at_ d p = some l)
    (hlink : ∀ d p l, link d p = some l → (t.get d = some .dir → t'.get d = some .dir) →
      (∀ v ∈ tr d p, t.get v ≠ none → t'.get v = t.get v) →
      link' d p = some l ∧ (t.get l = some .dir → t'.get l = some .dir))
    {pos l : Loc} {cs : List Component} (h : t.walk link pos cs = some l)
    (hpos : t.get pos = some .dir → t'.get pos = some .dir)
    (hv : ∀ v ∈ t.trailFrom at_ tr pos cs, t.get v ≠ none → t'.get v = t.get v) :
    t'.walk link' pos cs = some l ∧ (t.get l = some .dir → t'.get l = some .dir) := by
  induction cs generalizing pos with
  | nil =>
      cases h
      exact ⟨rfl, hpos⟩
  | cons c cs ih =>
      cases c with
      | curDir =>
          simp only [FileTree.walk] at h ⊢
          split at h
          · rename_i hd
            simpa only [hpos hd, if_true] using ih h hpos hv
          · cases h
      | parentDir =>
          simp only [FileTree.walk] at h ⊢
          split at h
          · rename_i hd
            have hup := t'.get_dropLast (hpos hd)
            simpa only [hpos hd, if_true] using ih h (fun _ => hup) hv
          · cases h
      | normal n =>
          rw [walk_normal] at h
          simp only [trailFrom] at hv
          have hn := hv (pos ++ [n]) List.mem_cons_self
          split at h
          · cases h
          · rename_i tgt hg
            -- what the link leads to lasts first, and then the rest of the way from there
            obtain ⟨m, hm, hw⟩ := Option.bind_eq_some_iff.mp h
            simp only [linkAt_eq_some.mpr hg, hat _ _ _ hm, Option.map_some,
              Option.getD_some] at hv
            obtain ⟨hm', hmd⟩ := hlink _ _ _ hm hpos fun v hmem =>
              hv v (List.mem_cons_of_mem _ (List.mem_append_left _ hmem))
            rw [walk_normal, hn (by simp [hg]), hg]
            simpa only [hm', Option.bind_some] using ih hw hmd fun v hmem =>
              hv v (List.mem_cons_of_mem _ (List.mem_append_right _ hmem))
          · rename_i e hsym hg
            simp only [linkAt_of_ne_symlink hg hsym] at hv
            have hn' := hn (by simp [hg])
            have hih := ih h (fun hd => hn'.trans hd) fun v hmem =>
              hv v (List.mem_cons_of_mem _ hmem)
            rw [walk_normal, hn', hg]
            cases e with
            | symlink tgt => exact absurd rfl (hsym tgt)
            | dir => exact hih
            | file a => exact hih

/-- The root is a directory of every tree, so where a path starts stays one if `pos` does. -/
theorem start_dir {t t' : FileTree α} {pos : Loc} {p : Path}
    (h : t.get pos = some .dir → t'.get pos = some .dir) :
    t.get (if p.root then [] else pos) = some .dir →
      t'.get (if p.root then [] else pos) = some .dir := by
  split
  · exact fun _ => t'.get_root
  · exact h

theorem follow_trail {t t' : FileTree α} {k : Nat} {pos l : Loc} {p : Path}
    (h : t.follow k pos p = some l)
    (hstart : t.get (if p.root then [] else pos) = some .dir →
      t'.get (if p.root then [] else pos) = some .dir)
    (hv : ∀ v ∈ t.trail k pos p, t.get v ≠ none → t'.get v = t.get v) :
    t'.follow k pos p = some l ∧ (t.get l = some .dir → t'.get l = some .dir) := by
  induction k generalizing pos p l with
  | zero =>
      rw [follow_eq] at h ⊢
      exact @walk_trail α t t' _ _ (fun _ _ => none) (fun _ _ => [])
        (fun _ _ _ hl => by cases hl) (fun _ _ _ hl => by cases hl) _ _ _ h hstart hv
  | succ k ih =>
      rw [follow_eq] at h ⊢
      exact walk_trail (fun _ _ _ hl => locate_of_follow hl)
        (fun d p l hl hd hvd => ih hl (start_dir hd) hvd) h hstart hv

section

variable {t t' : FileTree α}

/-- Trees that are the same on the way of a path are the same to it, and at its end. -/
theorem follow_same {k : Nat} {pos : Loc} {p : Path}
    (hstart : t'.get (if p.root then [] else pos) = some .dir ↔
      t.get (if p.root then [] else pos) = some .dir)
    (hv : ∀ v ∈ t.trail k pos p, t'.get v = t.get v) :
    t'.follow k pos p = t.follow k pos p ∧
      ∀ l, t.follow k pos p = some l → (t'.get l = some .dir ↔ t.get l = some .dir) := by
  have htr := (locate_congr fun v hmem => linkAt_of_get_eq (hv v hmem)).2
  have back : ∀ {l : Loc}, t'.follow k pos p = some l →
      t.follow k pos p = some l ∧ (t'.get l = some .dir → t.get l = some .dir) := fun h =>
    follow_trail h hstart.mp fun v hmem _ => (hv v (htr ▸ hmem)).symm
  cases h : t.follow k pos p with
  | some l =>
      obtain ⟨h', hd⟩ := follow_trail h hstart.mpr fun v hmem _ => hv v hmem
      refine ⟨h', ?_⟩
      rintro _ ⟨⟩
      exact ⟨(back h').2, hd⟩
  | none =>
      refine ⟨Option.eq_none_iff_forall_ne_some.mpr fun l hl => ?_, fun _ hl => by cases hl⟩
      rw [(back hl).1] at h
      cases h

theorem stop_same {link link' at_ : Loc → Path → Option Loc} {blame blame' : Loc → Path → Errno}
    {tr : Loc → Path → List Loc} (hat : ∀ d p l, link d p = some l → at_ d p = some l)
    (hlink : ∀ d p, (t'.get d = some .dir ↔ t.get d = some .dir) →
      (∀ v ∈ tr d p, t'.get v = t.get v) →
      (link' d p = link d p ∧
        ∀ l, link d p = some l → (t'.get l = some .dir ↔ t.get l = some .dir)) ∧
      blame' d p = blame d p)
    {pos : Loc} {cs : List Component} (hpos : t'.get pos = some .dir ↔ t.get pos = some .dir)
    (hv : ∀ v ∈ t.trailFrom at_ tr pos cs, t'.get v = t.get v) :
    t'.stop link' blame' pos cs = t.stop link blame pos cs := by
  induction cs generalizing pos with
  | nil => rfl
  | cons c cs ih =>
      cases c with
      | curDir =>
          simp only [stop]
          exact if_congr hpos (ih hpos hv) rfl
      | parentDir =>
          simp only [stop]
          by_cases hd : t.get pos = some .dir
          · have hup := t.get_dropLast hd
            have hup' := t'.get_dropLast (hpos.mpr hd)
            rw [if_pos hd, if_pos (hpos.mpr hd)]
            exact ih ⟨fun _ => hup, fun _ => hup'⟩ hv
          · rw [if_neg hd, if_neg fun hd' => hd (hpos.mp hd')]
      | normal n =>
          have hn : t'.get (pos ++ [n]) = t.get (pos ++ [n]) := hv _ List.mem_cons_self
          simp only [trailFrom] at hv
          simp only [stop, hn]
          cases hg : t.get (pos ++ [n]) with
          | none => exact if_congr hpos rfl rfl
          | some e =>
              cases e with
              | symlink tgt =>
                  simp only [linkAt_eq_some.mpr hg] at hv
                  obtain ⟨⟨hl, hld⟩, hb⟩ := hlink pos tgt hpos fun v hmem =>
                    hv v (List.mem_cons_of_mem _ (List.mem_append_left _ hmem))
                  simp only [hl, hb]
                  cases hm : link pos tgt with
                  | none => rfl
                  | some m =>
                      refine ih (hld m hm) fun v hmem => hv v (List.mem_cons_of_mem _ ?_)
                      rw [hat _ _ _ hm]
                      exact List.mem_append_right _ hmem
              | dir =>
                  simp only [linkAt_of_dir hg] at hv
                  exact ih (by rw [hn]) fun v hmem => hv v (List.mem_cons_of_mem _ hmem)
              | file a =>
                  simp only [linkAt_of_file hg] at hv
                  exact ih (by rw [hn]) fun v hmem => hv v (List.mem_cons_of_mem _ hmem)

/-- Where such a path leads nowhere, it does for the same reason. -/
theorem why_same {k : Nat} {pos : Loc} {p : Path}
    (hstart : t'.get (if p.root then [] else pos) = some .dir ↔
      t.get (if p.root then [] else pos) = some .dir)
    (hv : ∀ v ∈ t.trail k pos p, t'.get v = t.get v) : t'.why k pos p = t.why k pos p := by
  induction k generalizing pos p with
  | zero =>
      exact @stop_same α t t' _ _ (fun _ _ => none) _ _ (fun _ _ => [])
        (fun _ _ _ hl => by cases hl)
        (fun _ _ _ _ => ⟨⟨rfl, fun _ hl => by cases hl⟩, rfl⟩) _ _ hstart hv
  | succ k ih =>
      refine stop_same (fun _ _ _ hl => locate_of_follow hl) (fun d p hd hvd => ?_) hstart hv
      have hd' := Iff.intro (start_dir (p := p) hd.mp) (start_dir (p := p) hd.mpr)
      exact ⟨follow_same hd' hvd, ih hd' hvd⟩

end

/-- A path that leads to a directory runs through names that lead to one. -/
theorem walk_leads {t : FileTree α} {k : Nat} {link atl : Loc → Path → Option Loc}
    {tr : Loc → Path → List Loc}
    (hstep : ∀ d n m, t.walk link d [.normal n] = some m → t.get m = some .dir →
      t.LeadsToDir k d n)
    (hat : ∀ d p l, link d p = some l → atl d p = some l)
    (hlink : ∀ d p l, link d p = some l → t.get l = some .dir →
      ∀ v ∈ tr d p, ∃ d n, v = d ++ [n] ∧ t.LeadsToDir k d n)
    {pos l : Loc} {cs : List Component} (h : t.walk link pos cs = some l)
    (hl : t.get l = some .dir) {v : Loc} (hv : v ∈ t.trailFrom atl tr pos cs) :
    ∃ d n, v = d ++ [n] ∧ t.LeadsToDir k d n := by
  induction cs generalizing pos with
  | nil => cases hv
  | cons c cs ih =>
      have hpos := walk_start_dir h hl
      cases c with
      | curDir =>
          simp only [FileTree.walk, hpos, if_true] at h
          exact ih h hv
      | parentDir =>
          simp only [FileTree.walk, hpos, if_true] at h
          exact ih h hv
      | normal n =>
          rw [walk_normal] at h
          simp only [trailFrom] at hv
          split at h
          · cases h
          · rename_i tgt hg
            obtain ⟨m, hm, hw⟩ := Option.bind_eq_some_iff.mp h
            have hmd := walk_start_dir hw hl
            simp only [linkAt_eq_some.mpr hg, hat _ _ _ hm, Option.map_some,
              Option.getD_some] at hv
            -- the name of the link, what the link leads through, or what comes after it
            rcases List.mem_cons.mp hv with rfl | hv
            · refine ⟨pos, n, rfl, hstep _ _ m ?_ hmd⟩
              rw [walk_normal, hg]
              simp only [hm, Option.bind_some, walk_nil]
            · rcases List.mem_append.mp hv with hv | hv
              · exact hlink _ _ _ hm hmd v hv
              · exact ih hw hv
          · have hnd := walk_start_dir h hl
            simp only [linkAt_of_dir hnd] at hv
            rcases List.mem_cons.mp hv with rfl | hv
            · exact ⟨pos, n, rfl, leadsToDir_of_get hnd⟩
            · exact ih h hv

theorem follow_leads {t : FileTree α} {k j : Nat} (hj : j ≤ k) {pos l : Loc} {p : Path}
    (h : t.follow j pos p = some l) (hl : t.get l = some .dir) {v : Loc}
    (hv : v ∈ t.trail j pos p) : ∃ d n, v = d ++ [n] ∧ t.LeadsToDir k d n := by
  rw [follow_eq] at h
  cases j with
  | zero =>
      exact @walk_leads α t k _ (fun _ _ => none) (fun _ _ => [])
        (fun d n m hw hm => leadsToDir_of_walk hj hw hm) (fun _ _ _ hm => by cases hm)
        (fun _ _ _ hm => by cases hm) _ _ _ h hl v hv
  | succ j =>
      refine walk_leads (fun d n m hw hm => leadsToDir_of_walk hj hw hm)
        (fun _ _ _ hm => locate_of_follow hm) (fun d p m hm hmd v hv => ?_) h hl hv
      exact follow_leads (Nat.le_of_succ_le hj) hm hmd hv

/-- A walk that ends at a file runs through the place of that file. -/
theorem walk_mem_trail {t : FileTree α} {link atl : Loc → Path → Option Loc}
    {tr : Loc → Path → List Loc} (hat : ∀ d p l, link d p = some l → atl d p = some l)
    (hlink : ∀ d p l a, t.get d = some .dir → link d p = some l → t.get l = some (.file a) →
      l ∈ tr d p)
    {pos l : Loc} {cs : List Component} {a : α} (hpos : t.get pos = some .dir)
    (h : t.walk link pos cs = some l) (hl : t.get l = some (.file a)) :
    l ∈ t.trailFrom atl tr pos cs := by
  -- what comes after an entry that is no directory is that entry
  have hend : ∀ {m : Loc} {ds : List Component}, t.get m ≠ some .dir →
      t.walk link m ds = some l → l = m := fun hm hw => walk_from_leaf hm hw
  induction cs generalizing pos with
  | nil =>
      cases h
      rw [hpos] at hl
      cases hl
  | cons c cs ih =>
      cases c with
      | curDir =>
          simp only [FileTree.walk, hpos, if_true] at h
          exact ih hpos h
      | parentDir =>
          simp only [FileTree.walk, hpos, if_true] at h
          exact ih (t.get_dropLast hpos) h
      | normal n =>
          rw [walk_normal] at h
          simp only [trailFrom]
          split at h
          · cases h
          · rename_i tgt hg
            obtain ⟨m, hm, hw⟩ := Option.bind_eq_some_iff.mp h
            simp only [linkAt_eq_some.mpr hg, hat _ _ _ hm, Option.map_some, Option.getD_some]
            refine List.mem_cons_of_mem _ (List.mem_append.mpr ?_)
            by_cases hmd : t.get m = some .dir
            · exact .inr (ih hmd hw)
            · have hlm := hend hmd hw
              subst hlm
              exact .inl (hlink _ _ _ _ hpos hm hl)
          · rename_i e hsym hg
            have hnone := linkAt_of_ne_symlink hg hsym
            simp only [hnone]
            by_cases hnd : t.get (pos ++ [n]) = some .dir
            · exact List.mem_cons_of_mem _ (ih hnd h)
            · have hln := hend hnd h
              rw [hln]
              exact List.mem_cons_self

theorem follow_mem_trail {t : FileTree α} {k : Nat} {pos l : Loc} {p : Path} {a : α}
    (hpos : t.get pos = some .dir) (h : t.follow k pos p = some l)
    (hl : t.get l = some (.file a)) : l ∈ t.trail k pos p := by
  have hstart : ∀ {d : Loc} {q : Path}, t.get d = some .dir →
      t.get (if q.root then [] else d) = some .dir := by
    intro d q hd
    split
    · exact t.get_root
    · exact hd
  induction k generalizing pos p l a with
  | zero =>
      rw [follow_eq] at h
      exact @walk_mem_trail α t _ (fun _ _ => none) (fun _ _ => []) (fun _ _ _ hm => by cases hm)
        (fun _ _ _ _ _ hm _ => by cases hm) _ _ _ _ (hstart hpos) h hl
  | succ k ih =>
      rw [follow_eq] at h
      exact walk_mem_trail (fun _ _ _ hm => locate_of_follow hm)
        (fun d q m b hd hm hb => ih hd hm hb) (hstart hpos) h hl

/-- The places a link met at depth `k` adds to a trail. -/
def trailLink (t : FileTree α) : Nat → Loc → Path → List Loc
  | 0 => fun _ _ => []
  | k + 1 => t.trail k

theorem trail_eq (t : FileTree α) (k : Nat) (pos : Loc) (p : Path) :
    t.trail k pos p
      = t.trailFrom (t.aimLink k) (t.trailLink k) (if p.root then [] else pos) p.comps := by
  cases k <;> rfl

theorem trail_down (t : FileTree α) (k : Nat) (pos : Loc) (p : Path) (r : List String) :
    t.trail k pos (p.down r) = t.trail k pos p ++ ((t.locate k pos p).map fun l =>
      t.trailFrom (t.aimLink k) (t.trailLink k) l (Path.names r)).getD [] := by
  rw [trail_eq, trail_eq, locate_eq]
  exact trailFrom_append t _ _ _ _ _

/-- The slot a file is created in is on the way of its path. -/
theorem place_mem_trail {t : FileTree α} {k : Nat} {pos d : Loc} {p : Path} {n : String}
    (h : t.place k pos p = some (d, n)) : d ++ [n] ∈ t.trail k pos p := by
  induction k generalizing pos p with
  | zero =>
      unfold place at h
      split at h
      · rename_i m hm
        obtain ⟨x, hx, hif⟩ := Option.bind_eq_some_iff.mp h
        split at hif
        · cases hif
          rw [Path.eq_child_of_getLast hm, Path.child_eq_down, trail_down, locate_of_follow hx]
          exact List.mem_append_right _ List.mem_cons_self
        · cases hif
      · cases h
  | succ k ih =>
      unfold place at h
      split at h
      · rename_i m hm
        obtain ⟨x, hx, hif⟩ := Option.bind_eq_some_iff.mp h
        rw [Path.eq_child_of_getLast hm, Path.child_eq_down, trail_down, locate_of_follow hx]
        refine List.mem_append_right _ ?_
        split at hif
        · cases hl : t.linkAt (x ++ [m]) with
          | some tgt =>
              -- the link leads on, and the slot is on its way
              simp only [hl] at hif
              simp only [Option.map_some, Option.getD_some, Path.names_cons, trailFrom, hl]
              exact List.mem_cons_of_mem _ (List.mem_append_left _ (ih hif))
          | none =>
              simp only [hl] at hif
              cases hif
              simp only [Option.map_some, Option.getD_some, Path.names_cons, trailFrom]
              exact List.mem_cons_self
        · cases hif
      · cases h

/-- At the places `vs`, all that `u` has and `t` has not are directories where
nothing was. -/
def GrowsOn (vs : List Loc) (t u : FileTree α) : Prop :=
  ∀ v ∈ vs, u.get v = t.get v ∨ (t.get v = none ∧ u.get v = some .dir)

theorem Grows.on {t u : FileTree α} (h : Grows t u) (vs : List Loc) : GrowsOn vs t u :=
  fun v _ => h v

theorem GrowsOn.refl (vs : List Loc) (t : FileTree α) : GrowsOn vs t t := fun _ _ => .inl rfl

theorem GrowsOn.mono {vs ws : List Loc} {t u : FileTree α} (h : GrowsOn vs t u)
    (hs : ∀ v ∈ ws, v ∈ vs) : GrowsOn ws t u := fun v hv => h v (hs v hv)

theorem GrowsOn.trans {vs : List Loc} {t u w : FileTree α} (h : GrowsOn vs t u)
    (h' : GrowsOn vs u w) : GrowsOn vs t w := by
  intro v hv
  rcases h v hv with h1 | ⟨h1, h2⟩
  · rcases h' v hv with h3 | ⟨h3, h4⟩
    · exact .inl (h3.trans h1)
    · exact .inr ⟨h1 ▸ h3, h4⟩
  · rcases h' v hv with h3 | ⟨h3, -⟩
    · exact .inr ⟨h1, h3.trans h2⟩
    · rw [h2] at h3
      cases h3

theorem GrowsOn.linkAt {vs : List Loc} {t u : FileTree α} (h : GrowsOn vs t u) {v : Loc}
    (hv : v ∈ vs) : u.linkAt v = t.linkAt v := by
  rcases h v hv with h1 | ⟨h1, h2⟩
  · exact linkAt_of_get_eq h1
  · rw [linkAt_of_none h1, linkAt_of_dir h2]

theorem GrowsOn.keeps {vs : List Loc} {t u : FileTree α} (h : GrowsOn vs t u) {v : Loc}
    (hv : v ∈ vs) (hn : t.get v ≠ none) : u.get v = t.get v := by
  rcases h v hv with h1 | ⟨h1, -⟩
  · exact h1
  · exact absurd h1 hn

/-! ## A new file -/

/-- A path leads to the file it would have created, once that is there. -/
theorem follow_of_place {t t' : FileTree α} {d : Loc} {n : String} {a : α}
    (hx : t'.get (d ++ [n]) = some (.file a)) (hkeep : ∀ j, KeepsDirs j t t')
    (hrest : ∀ l, l ≠ d ++ [n] → t'.get l = t.get l) {k : Nat} {pos : Loc} {p : Path}
    (h : t.place k pos p = some (d, n)) : t'.follow k pos p = some (d ++ [n]) := by
  have hone : ∀ (x : Loc) (m : String) (j : Nat), t.linkAt (x ++ [m]) = none → (x, m) = (d, n) →
      t'.walk (t'.viaLink j) x [.normal m] = some (d ++ [n]) := by
    intro x m j _ he
    cases he
    exact walk_single hx (by simp)
  induction k generalizing pos p with
  | zero =>
      unfold place at h
      split at h
      · rename_i m hm
        obtain ⟨x, hq, hif⟩ := Option.bind_eq_some_iff.mp h
        split at hif
        · rename_i hc
          rw [Path.eq_child_of_getLast hm, follow_child,
            follow_keepsDirs (hkeep 0) (Nat.le_refl _) hq hc.1]
          exact hone x m 0 hc.2 (Option.some.inj hif)
        · cases hif
      · cases h
  | succ k ih =>
      unfold place at h
      split at h
      · rename_i m hm
        obtain ⟨x, hq, hif⟩ := Option.bind_eq_some_iff.mp h
        split at hif
        · rename_i hd
          rw [Path.eq_child_of_getLast hm, follow_child,
            follow_keepsDirs (hkeep (k + 1)) (Nat.le_refl _) hq hd, Option.bind_some]
          split at hif
          · rename_i tgt hl
            -- the link is still there, and leads to the new file
            have hne : x ++ [m] ≠ d ++ [n] := fun he => by
              have := (place_spec hif).2.1
              rw [← he, hl] at this
              cases this
            rw [walk_normal, hrest _ hne, linkAt_eq_some.mp hl]
            have hf : t'.viaLink (k + 1) x tgt = some (d ++ [n]) := ih hif
            simp only [hf, Option.bind_some, walk_nil]
          · rename_i hl
            exact hone x m _ hl (Option.some.inj hif)
        · cases hif
      · cases h

/-- Only a path that ends in a name leads to a file. -/
theorem eq_child_of_follow {t : FileTree α} {k : Nat} {pos x : Loc} {p : Path} {a : α}
    (hpos : t.get pos = some .dir) (h : t.follow k pos p = some x)
    (hx : t.get x = some (.file a)) : ∃ (q : Path) (m : String), p = q.child m := by
  have hstart : t.get (if p.root then [] else pos) = some .dir := by
    split
    · exact t.get_root
    · exact hpos
  obtain ⟨b, cs⟩ := p
  rw [follow_eq] at h
  rcases List.eq_nil_or_concat cs with rfl | ⟨cs, c, rfl⟩
  -- no component at all leads to a directory
  · rw [walk_nil, Option.some.injEq] at h
    rw [h, hx] at hstart
    cases hstart
  · rw [List.concat_eq_append] at h ⊢
    cases c with
    | normal m => exact ⟨⟨b, cs⟩, m, rfl⟩
    | curDir =>
        rw [walk_append] at h
        obtain ⟨l, -, hw⟩ := Option.bind_eq_some_iff.mp h
        simp only [FileTree.walk] at hw
        split at hw
        · rename_i hl
          cases hw
          rw [hx] at hl
          cases hl
        · cases hw
    | parentDir =>
        rw [walk_append] at h
        obtain ⟨l, -, hw⟩ := Option.bind_eq_some_iff.mp h
        simp only [FileTree.walk] at hw
        split at hw
        · rename_i hl
          have hdl : l.dropLast = x := Option.some.inj hw
          rcases List.eq_nil_or_concat l with rfl | ⟨l, c, rfl⟩
          -- `..` ends in the parent of a directory, which is a directory
          · rw [← hdl] at hx
            rw [show ([] : Loc).dropLast = [] from rfl, t.get_root] at hx
            cases hx
          · rw [List.concat_eq_append, List.dropLast_concat] at hdl
            rw [List.concat_eq_append] at hl
            have := t.get_parent hl
            rw [hdl, hx] at this
            cases this
        · cases hw

/-- A path that leads to a file put where nothing was is one under which that
file would have been created. -/
theorem place_of_follow_leaf {t t' : FileTree α} {d : Loc} {n : String} {a : α}
    (hx : t'.get (d ++ [n]) = some (.file a)) (hfree : t.get (d ++ [n]) = none)
    (hrest : ∀ l, l ≠ d ++ [n] → t'.get l = t.get l) {k : Nat} {pos : Loc} {p : Path}
    (hpos : t'.get pos = some .dir) (h : t'.follow k pos p = some (d ++ [n])) :
    t.place k pos p = some (d, n) := by
  obtain ⟨q, m, rfl⟩ := eq_child_of_follow hpos h hx
  -- and it hangs off a directory that was there before
  rw [follow_child] at h
  obtain ⟨l, hq, hw⟩ := Option.bind_eq_some_iff.mp h
  have hld : t'.get l = some .dir := by
    rw [walk_normal] at hw
    split at hw
    · cases hw
    · rename_i hg
      exact t'.get_parent hg
    · rename_i hg
      exact t'.get_parent hg
  have hlx : l ≠ d ++ [n] := fun he => by
    rw [he, hx] at hld
    cases hld
  have hqt : t.follow k pos q = some l := (follow_of_leaf hx hrest hq).resolve_left hlx
  have hltd : t.get l = some .dir := by rw [← hrest l hlx]; exact hld
  have hlast : (q.child m).comps.getLast? = some (.normal m) := by simp [Path.child]
  have hinit : (⟨(q.child m).root, (q.child m).comps.dropLast⟩ : Path) = q := by
    simp [Path.child]
  rw [walk_normal] at hw
  by_cases hlm : l ++ [m] = d ++ [n]
  · have hno : t.linkAt (l ++ [m]) = none := linkAt_of_none (hlm ▸ hfree)
    obtain ⟨rfl, hmn⟩ := List.append_inj' hlm rfl
    obtain rfl := List.singleton_inj.mp hmn
    cases k with
    | zero => simp [place, hlast, hinit, hqt, hltd, hno]
    | succ k => simp [place, hlast, hinit, hqt, hltd, hno]
  · split at hw
    · cases hw
    · rename_i tgt hg
      obtain ⟨x, hv, hwx⟩ := Option.bind_eq_some_iff.mp hw
      cases hwx
      have hsym : t.linkAt (l ++ [m]) = some tgt := by
        rw [linkAt_eq_some, ← hrest _ hlm, hg]
      cases k with
      | zero => cases hv
      | succ k =>
          have ih := place_of_follow_leaf hx hfree hrest (k := k) hld hv
          simp [place, hlast, hinit, hqt, hltd, hsym, ih]
    · rw [walk_nil, Option.some.injEq] at hw
      exact absurd hw hlm

end FileTree

namespace Kernel

open FileTree

/-- The places `p` runs through, from the working directory. -/
def trail (k : Kernel) (t : FileTree α) (p : Path) : List Loc := t.trail k.links k.cwd p

theorem trail_down (k : Kernel) (t : FileTree α) (p : Path) (r : List String) :
    k.trail t (p.down r) = k.trail t p ++ ((k.locate t p).map fun l =>
      t.trailFrom (t.aimLink k.links) (t.trailLink k.links) l (Path.names r)).getD [] :=
  FileTree.trail_down t _ _ _ _

theorem trail_subset_child (k : Kernel) (t : FileTree α) (p : Path) (n : String) {v : Loc}
    (hv : v ∈ k.trail t p) : v ∈ k.trail t (p.child n) := by
  rw [Path.child_eq_down, trail_down]
  exact List.mem_append_left _ hv

/-- A path runs through all that its parent runs through. -/
theorem trail_subset_parent (k : Kernel) (t : FileTree α) {p q : Path} (h : p.parent = some q)
    {v : Loc} (hv : v ∈ k.trail t q) : v ∈ k.trail t p := by
  unfold Path.parent at h
  split at h
  · cases h
  · rename_i hne
    cases h
    unfold trail at hv ⊢
    rw [trail_eq] at hv ⊢
    rw [← List.dropLast_append_getLast hne, trailFrom_append]
    exact List.mem_append_left _ hv

/-- The places the parent of `p` runs through. -/
def way_in (k : Kernel) (t : FileTree α) (p : Path) : List Loc :=
  match p.parent with
  | some q => k.trail t q
  | none => []

theorem mem_way_in {k : Kernel} {t : FileTree α} {q : Path} {n : String} {v : Loc} :
    v ∈ k.way_in t (q.child n) ↔ v ∈ k.trail t q := by
  simp only [way_in, Path.parent_child]

theorem way_in_subset {k : Kernel} {t : FileTree α} {p : Path} {v : Loc} (h : v ∈ k.way_in t p) :
    v ∈ k.trail t p := by
  unfold way_in at h
  split at h
  · rename_i q hq
    exact k.trail_subset_parent t hq h
  · cases h

/-- Below a located path, names that meet no link run through the places they
spell. -/
theorem mem_trail_down {k : Kernel} {t : FileTree α} {p : Path} {l r v : Loc}
    (hl : k.locate t p = some l) (h : ∀ s, s ≠ [] → s <+: r → t.linkAt (l ++ s) = none)
    (hv : v ∈ k.trail t (p.down r)) :
    v ∈ k.trail t p ∨ ∃ s, s ≠ [] ∧ s <+: r ∧ v = l ++ s := by
  rw [trail_down, hl] at hv
  rcases List.mem_append.mp hv with hv | hv
  · exact .inl hv
  · exact .inr (trailFrom_names h hv)

theorem locate_trail {k : Kernel} {t t' : FileTree α} {p : Path}
    (h : ∀ v ∈ k.trail t p, t'.linkAt v = t.linkAt v) :
    k.locate t' p = k.locate t p ∧ k.trail t' p = k.trail t p := locate_congr h

theorem stat_trail {k : Kernel} {t t' : FileTree α} {p : Path} {l : Loc} (h : k.stat t p = some l)
    (hs : t.get (k.start p) = some .dir → t'.get (k.start p) = some .dir)
    (hv : ∀ v ∈ k.trail t p, t.get v ≠ none → t'.get v = t.get v) :
    k.stat t' p = some l ∧ (t.get l = some .dir → t'.get l = some .dir) := by
  obtain ⟨hst, hf⟩ := stat_eq_some.mp h
  obtain ⟨hf', hd⟩ := follow_trail hf hs hv
  exact ⟨stat_eq_some.mpr ⟨hs hst, hf'⟩, hd⟩

/-- The slot of a path lasts as long as the entries its parent runs through. -/
theorem slot_trail {k : Kernel} {t t' : FileTree α} {p : Path} {d : Loc} {n : String}
    (h : k.slot t p = some (d, n))
    (hs : t.get (k.start p) = some .dir → t'.get (k.start p) = some .dir)
    (hv : ∀ q, p = q.child n → ∀ v ∈ k.trail t q, t.get v ≠ none → t'.get v = t.get v) :
    k.slot t' p = some (d, n) := by
  obtain ⟨q, rfl, hq, hd⟩ := slot_spec h
  obtain ⟨hq', hd'⟩ := stat_trail hq hs (hv q rfl)
  exact slot_child_eq_some.mpr ⟨hq', hd' hd, rfl⟩

theorem is_dir_trail {k : Kernel} {t t' : FileTree α} {p : Path} (h : k.is_dir t p = true)
    (hs : t.get (k.start p) = some .dir → t'.get (k.start p) = some .dir)
    (hv : ∀ v ∈ k.trail t p, t.get v ≠ none → t'.get v = t.get v) : k.is_dir t' p = true := by
  obtain ⟨l, hl, hd⟩ := is_dir_iff.mp h
  obtain ⟨hl', hd'⟩ := stat_trail hl hs hv
  exact is_dir_iff.mpr ⟨l, hl', hd' hd⟩

/-- A path that leads to a file runs through the place of that file. -/
theorem stat_mem_trail {k : Kernel} {t : FileTree α} {p : Path} {l : Loc} {a : α}
    (h : k.stat t p = some l) (hl : t.get l = some (.file a)) : l ∈ k.trail t p := by
  obtain ⟨hs, hf⟩ := stat_eq_some.mp h
  by_cases hr : p.root = true
  · have hany : ∀ pos : Loc, t.follow k.links pos p = t.follow k.links [] p := by
      intro pos
      rw [follow_eq, follow_eq]
      simp [hr]
    have htr : t.trail k.links k.cwd p = t.trail k.links [] p := by
      cases k.links <;> simp [FileTree.trail, hr]
    rw [hany] at hf
    rw [trail, htr]
    exact follow_mem_trail t.get_root hf hl
  · have hcwd : k.start p = k.cwd := by simp [start, hr]
    rw [hcwd] at hs
    exact follow_mem_trail hs hf hl

/-- Above a directory that resolves, the path resolves to directories. -/
theorem is_dir_of_down {k : Kernel} {t : FileTree α} {p : Path} {r : List String}
    (h : k.is_dir t (p.down r) = true) : k.is_dir t p = true := by
  obtain ⟨l, hl, hd⟩ := is_dir_iff.mp h
  rw [stat_down] at hl
  obtain ⟨m, hm, hw⟩ := Option.bind_eq_some_iff.mp hl
  exact is_dir_iff.mpr ⟨m, hm, walk_start_dir hw hd⟩

/-- A path whose slot leads to a directory leads to one. -/
theorem is_dir_of_leads {k : Kernel} {t : FileTree α} {p : Path} {d : Loc} {n : String}
    (h : k.slot t p = some (d, n)) (hl : t.LeadsToDir k.links d n) : k.is_dir t p = true := by
  obtain ⟨q, rfl, hq, -⟩ := slot_spec h
  obtain ⟨l, hw, hd⟩ := hl
  refine is_dir_iff.mpr ⟨l, ?_, hd⟩
  rw [stat_child, hq]
  exact hw

theorem slot_keepsDirs {k : Kernel} {t t' : FileTree α} (hk : KeepsDirs k.links t t') {p : Path}
    {s : Loc × String} (h : k.slot t p = some s) : k.slot t' p = some s := by
  obtain ⟨d, n⟩ := s
  obtain ⟨q, rfl, hq, hd⟩ := slot_spec h
  exact slot_child_eq_some.mpr ⟨stat_keepsDirs hk hq hd, hk.get_dir hd, rfl⟩

/-- `Fades.follow`, from the working directory. -/
theorem stat_fades {k : Kernel} {t u v : FileTree α} (hf : Fades t u)
    (hkeep : ∀ d n, t.LeadsToDir k.links d n → v.get (d ++ [n]) = u.get (d ++ [n])) {p : Path}
    {l l' : Loc} (h : k.stat t p = some l) (hl : t.get l = some .dir)
    (h' : k.stat u p = some l') (hl' : u.get l' = some .dir) :
    l' = l ∧ k.stat v p = some l := by
  obtain ⟨hs, hfl⟩ := stat_eq_some.mp h
  obtain ⟨-, hfl'⟩ := stat_eq_some.mp h'
  obtain ⟨heq, hv⟩ := hf.follow hkeep (Nat.le_refl _) hfl hl hfl' hl'
  refine ⟨heq, stat_eq_some.mpr ⟨?_, hv⟩⟩
  rcases List.eq_nil_or_concat (k.start p) with hnil | ⟨d, n, hdn⟩
  · rw [hnil]
    exact v.get_root
  · rw [List.concat_eq_append] at hdn
    rw [hdn] at hs ⊢
    rw [hkeep d n (leadsToDir_of_get hs), hf.1 _ hs]

/-- Creating a name in a resolved directory, when no link sits there. -/
theorem place_child {k : Kernel} {t : FileTree α} {p : Path} {d : Loc} {n : String}
    (hs : k.stat t p = some d) (hd : t.get d = some .dir) (hl : t.linkAt (d ++ [n]) = none) :
    k.place t (p.child n) = some (d, n) := by
  obtain ⟨hstart, hf⟩ := stat_eq_some.mp hs
  have hlast : (p.child n).comps.getLast? = some (.normal n) := by simp [Path.child]
  have hinit : (⟨(p.child n).root, (p.child n).comps.dropLast⟩ : Path) = p := by simp [Path.child]
  unfold place
  rw [start_child, if_pos hstart]
  cases hk : k.links with
  | zero =>
      rw [hk] at hf
      simp [FileTree.place, hlast, hinit, hf, hd, hl]
  | succ j =>
      rw [hk] at hf
      simp [FileTree.place, hlast, hinit, hf, hd, hl]

/-- What takes the place of neither a directory nor a link to one leaves every
path to a directory alone. -/
theorem keepsDirs_of_leaf {j : Nat} {t t' : FileTree α} {d : Loc} {n : String}
    (hd : t.get (d ++ [n]) ≠ some .dir) (hl : t.linkAt (d ++ [n]) = none)
    (hrest : ∀ l, l ≠ d ++ [n] → t'.get l = t.get l) : KeepsDirs j t t' := by
  intro d' n' ⟨l, hw, hld⟩
  apply hrest
  intro he
  obtain ⟨rfl, hn⟩ := List.append_inj' he rfl
  obtain rfl := List.singleton_inj.mp hn
  rw [walk_normal] at hw
  split at hw
  · cases hw
  · rename_i hg
    rw [linkAt_eq_some.mpr hg] at hl
    cases hl
  · cases hw
    exact hd hld

/-- A path leads to the file it has created. -/
theorem stat_of_place {k : Kernel} {t t' : FileTree α} {d : Loc} {n : String} {a : α}
    (hx : t'.get (d ++ [n]) = some (.file a)) (hd : t.get (d ++ [n]) ≠ some .dir)
    (hrest : ∀ l, l ≠ d ++ [n] → t'.get l = t.get l) {p : Path}
    (h : k.place t p = some (d, n)) : k.stat t' p = some (d ++ [n]) := by
  obtain ⟨-, hl, -⟩ := place_spec h
  have hkeep : ∀ j, KeepsDirs j t t' := fun j => keepsDirs_of_leaf hd hl hrest
  unfold place at h
  split at h
  · rename_i hs
    exact stat_eq_some.mpr ⟨(hkeep 0).get_dir hs, follow_of_place hx hkeep hrest h⟩
  · cases h

/-- Where no file is to be read, what is written is a new one. -/
theorem write_new {k : Kernel} {t t' : FileTree α} {p : Path} {a : α} (hread : k.read t p = none)
    (h : k.write t p a = .ok t') :
    ∃ d n, k.place t p = some (d, n) ∧ t.get (d ++ [n]) = none ∧
      ∀ x, t'.get x = if x = d ++ [n] then some (.file a) else t.get x := by
  obtain ⟨d, n, hp, hd, hg⟩ := write_spec h
  refine ⟨d, n, hp, ?_, hg⟩
  cases he : t.get (d ++ [n]) with
  | none => rfl
  | some e =>
      obtain ⟨-, hlink, -⟩ := place_spec hp
      cases e with
      | dir => exact absurd he hd
      | symlink tgt =>
          rw [linkAt_eq_some.mpr he] at hlink
          cases hlink
      | file b =>
          rw [read_eq_some.mpr ⟨_, stat_of_place he hd (fun _ _ => rfl) hp, he⟩] at hread
          cases hread

theorem place_mem_trail {k : Kernel} {t : FileTree α} {p : Path} {d : Loc} {n : String}
    (h : k.place t p = some (d, n)) : d ++ [n] ∈ k.trail t p := by
  unfold place at h
  split at h
  · exact FileTree.place_mem_trail h
  · cases h

/-- What can be created at a path is a name in a directory. -/
theorem parent_of_place {k : Kernel} {t : FileTree α} {p : Path} {d : Loc} {n : String}
    (h : k.place t p = some (d, n)) :
    ∃ (q : Path) (m : String), p = q.child m ∧ k.is_dir t q = true := by
  unfold place at h
  split at h
  · rename_i hs
    -- with or without links left to follow, the parent is resolved first
    have hone : ∀ (j : Nat), t.place j k.cwd p = some (d, n) → ∃ m x,
        p.comps.getLast? = some (.normal m) ∧
          t.follow j k.cwd ⟨p.root, p.comps.dropLast⟩ = some x ∧ t.get x = some .dir := by
      intro j hj
      cases j with
      | zero =>
          unfold FileTree.place at hj
          split at hj
          · rename_i m hm
            obtain ⟨x, hx, hif⟩ := Option.bind_eq_some_iff.mp hj
            split at hif
            · rename_i hc
              exact ⟨m, x, hm, hx, hc.1⟩
            · cases hif
          · cases hj
      | succ j =>
          unfold FileTree.place at hj
          split at hj
          · rename_i m hm
            obtain ⟨x, hx, hif⟩ := Option.bind_eq_some_iff.mp hj
            split at hif
            · rename_i hd
              exact ⟨m, x, hm, hx, hd⟩
            · cases hif
          · cases hj
    obtain ⟨m, x, hm, hx, hd⟩ := hone k.links h
    exact ⟨_, m, Path.eq_child_of_getLast hm, is_dir_iff.mpr ⟨x, stat_eq_some.mpr ⟨hs, hx⟩, hd⟩⟩
  · cases h

/-- `FileTree.follow_leads`, from the working directory. -/
theorem trail_leads {k : Kernel} {t : FileTree α} {p : Path} {l : Loc} (h : k.stat t p = some l)
    (hl : t.get l = some .dir) {v : Loc} (hv : v ∈ k.trail t p) :
    ∃ d n, v = d ++ [n] ∧ t.LeadsToDir k.links d n :=
  follow_leads (Nat.le_refl _) (stat_eq_some.mp h).2 hl hv

/-- A path that leads to a new file would have created it. -/
theorem place_of_stat_leaf {k : Kernel} {t t' : FileTree α} {d : Loc} {n : String} {a : α}
    (hx : t'.get (d ++ [n]) = some (.file a)) (hfree : t.get (d ++ [n]) = none)
    (hrest : ∀ l, l ≠ d ++ [n] → t'.get l = t.get l) {p : Path}
    (h : k.stat t' p = some (d ++ [n])) : k.place t p = some (d, n) := by
  obtain ⟨hs, hf⟩ := stat_eq_some.mp h
  have hne : k.start p ≠ d ++ [n] := fun he => by
    rw [he, hx] at hs
    cases hs
  have hs' : t.get (k.start p) = some .dir := by rw [← hrest _ hne]; exact hs
  unfold place
  rw [if_pos hs']
  by_cases hr : p.root = true
  · -- an absolute path does not look at the working directory
    have hf0 : t'.follow k.links [] p = some (d ++ [n]) := by
      rw [follow_eq] at hf ⊢
      simpa [hr] using hf
    have hp0 := place_of_follow_leaf hx hfree hrest t'.get_root hf0
    have : ∀ j (pos : Loc), t.place j pos p = t.place j [] p := by
      intro j pos
      have hfr : ∀ (i : Nat), t.follow i pos ⟨p.root, p.comps.dropLast⟩
          = t.follow i [] ⟨p.root, p.comps.dropLast⟩ := by
        intro i
        rw [follow_eq, follow_eq]
        simp [hr]
      cases j <;> simp only [FileTree.place, hfr]
    rw [this, hp0]
  · have hcwd : k.start p = k.cwd := by simp [start, hr]
    rw [hcwd] at hs
    exact place_of_follow_leaf hx hfree hrest hs hf

end Kernel

/-! ## Making directories and writing files

Whoever only makes directories and writes files, over old ones as well, leaves
every path that led somewhere leading there, and the place every path names. -/

namespace FileTree

/-- `t'` is `t` with directories and files more, and other contents in files. -/
structure Builds (t t' : FileTree α) : Prop where
  link : ∀ l, t'.linkAt l = t.linkAt l
  dir : ∀ l, t.get l = some .dir → t'.get l = some .dir
  file : ∀ l a, t.get l = some (.file a) → ∃ b, t'.get l = some (.file b)

theorem Builds.refl (t : FileTree α) : Builds t t :=
  ⟨fun _ => rfl, fun _ h => h, fun _ a h => ⟨a, h⟩⟩

theorem Builds.trans {t u v : FileTree α} (h : Builds t u) (h' : Builds u v) : Builds t v := by
  refine ⟨fun l => (h'.link l).trans (h.link l), fun l hl => h'.dir l (h.dir l hl), ?_⟩
  intro l a hl
  obtain ⟨b, hb⟩ := h.file l a hl
  exact h'.file l b hb

theorem Grows.builds {t t' : FileTree α} (h : Grows t t') : Builds t t' :=
  ⟨h.linkAt, fun _ hl => h.extends _ _ hl, fun _ a hl => ⟨a, h.extends _ _ hl⟩⟩

theorem builds_of_leaf {t t' : FileTree α} {x : Loc} {a : α} (hd : t.get x ≠ some .dir)
    (hl : t.linkAt x = none) (hx : t'.get x = some (.file a))
    (hrest : ∀ l, l ≠ x → t'.get l = t.get l) : Builds t t' := by
  constructor
  · intro l
    by_cases h : l = x
    · rw [h, hl, linkAt_of_file hx]
    · exact linkAt_of_get_eq (hrest l h)
  · intro l h
    have hne : l ≠ x := fun he => hd (he ▸ h)
    rw [hrest l hne, h]
  · intro l b h
    by_cases he : l = x
    · exact ⟨a, by rw [he, hx]⟩
    · exact ⟨b, by rw [hrest l he, h]⟩

theorem Builds.symlink {t t' : FileTree α} (hb : Builds t t') {l : Loc} {p : Path}
    (h : t.get l = some (.symlink p)) : t'.get l = some (.symlink p) := by
  rw [← linkAt_eq_some, hb.link, linkAt_eq_some, h]

theorem Builds.follow {t t' : FileTree α} (hb : Builds t t') {k : Nat} {pos l : Loc} {p : Path}
    (h : t.follow k pos p = some l) : t'.follow k pos p = some l :=
  follow_carried hb.dir (fun _ _ hl => hb.symlink hl) hb.file h

/-- A walk that goes on starts in a directory. -/
theorem dir_of_walk_cons {t : FileTree α} {link : Loc → Path → Option Loc} {pos l : Loc}
    {c : Component} {cs : List Component} (h : t.walk link pos (c :: cs) = some l) :
    t.get pos = some .dir := by
  cases c with
  | curDir =>
      simp only [FileTree.walk] at h
      split at h
      · assumption
      · cases h
  | parentDir =>
      simp only [FileTree.walk] at h
      split at h
      · assumption
      · cases h
  | normal n =>
      rw [walk_normal] at h
      cases he : t.get (pos ++ [n]) with
      | none =>
          rw [he] at h
          cases h
      | some e => exact t.get_parent he

/-- Where a walk comes by no new directory, and ends at none and at no new file, it went the
same way before. -/
theorem Builds.walk_back {t u : FileTree α} (hb : Builds t u)
    {lt lu at_ : Loc → Path → Option Loc} {tr : Loc → Path → List Loc}
    (hat : ∀ d p l, lu d p = some l → at_ d p = some l)
    (hlink : ∀ d p l, lu d p = some l → u.get l = some .dir ∨ t.get l ≠ none →
      t.get d = some .dir → (∀ v ∈ tr d p, t.get v = none → u.get v ≠ some .dir) →
        lt d p = some l ∧ (u.get l = some .dir → t.get l = some .dir))
    {pos l : Loc} {cs : List Component} (h : u.walk lu pos cs = some l)
    (hl : u.get l = some .dir ∨ t.get l ≠ none) (hpos : u.get pos = some .dir → t.get pos = some .dir)
    (hv : ∀ v ∈ t.trailFrom at_ tr pos cs, t.get v = none → u.get v ≠ some .dir) :
    t.walk lt pos cs = some l ∧ (u.get l = some .dir → t.get l = some .dir) := by
  induction cs generalizing pos with
  | nil =>
      cases h
      exact ⟨rfl, hpos⟩
  | cons c cs ih =>
      have hpd := hpos (dir_of_walk_cons h)
      cases c with
      | curDir =>
          simp only [FileTree.walk, hb.dir _ hpd, hpd, if_true] at h ⊢
          exact ih h hpos hv
      | parentDir =>
          simp only [FileTree.walk, hb.dir _ hpd, hpd, if_true] at h ⊢
          exact ih h (fun _ => t.get_dropLast hpd) hv
      | normal n =>
          rw [walk_normal] at h
          simp only [trailFrom] at hv
          cases ht : t.get (pos ++ [n]) with
          | some e =>
              cases e with
              | symlink tgt =>
                  have hlk := linkAt_eq_some.mpr ht
                  rw [hb.symlink ht] at h
                  obtain ⟨m, hm, hw⟩ := Option.bind_eq_some_iff.mp h
                  simp only [hlk, hat _ _ _ hm, Option.map_some, Option.getD_some] at hv
                  -- what a link leads to is where the walk goes on, or its end
                  have hend : u.get m = some .dir ∨ t.get m ≠ none := by
                    cases cs with
                    | nil =>
                        cases hw
                        exact hl
                    | cons c cs => exact .inl (dir_of_walk_cons hw)
                  obtain ⟨hm', hmd⟩ := hlink _ _ _ hm hend hpd fun v hmem =>
                    hv v (List.mem_cons_of_mem _ (List.mem_append_left _ hmem))
                  rw [walk_normal, ht]
                  simpa only [hm', Option.bind_some] using ih hw hmd fun v hmem =>
                    hv v (List.mem_cons_of_mem _ (List.mem_append_right _ hmem))
              | dir =>
                  simp only [linkAt_of_dir ht] at hv
                  rw [hb.dir _ ht] at h
                  rw [walk_normal, ht]
                  exact ih h (fun _ => ht) fun v hmem => hv v (List.mem_cons_of_mem _ hmem)
              | file a =>
                  obtain ⟨b, hu⟩ := hb.file _ a ht
                  simp only [linkAt_of_file ht] at hv
                  rw [hu] at h
                  rw [walk_normal, ht]
                  refine ih h (fun hd => ?_) fun v hmem => hv v (List.mem_cons_of_mem _ hmem)
                  rw [hu] at hd
                  cases hd
          | none =>
              -- the new entry here is no directory, so the walk ends at it
              exfalso
              have hud := hv _ List.mem_cons_self ht
              cases hu : u.get (pos ++ [n]) with
              | none =>
                  rw [hu] at h
                  cases h
              | some e =>
                  rw [hu] at h
                  cases e with
                  | symlink tgt =>
                      have hlk := hb.link (pos ++ [n])
                      rw [linkAt_eq_some.mpr hu, linkAt_of_none ht] at hlk
                      cases hlk
                  | dir => exact hud hu
                  | file a =>
                      obtain rfl := walk_from_leaf hud h
                      rcases hl with hl | hl
                      · exact hud hl
                      · exact hl ht

theorem Builds.follow_back {t u : FileTree α} (hb : Builds t u) {k : Nat} {pos l : Loc} {p : Path}
    (h : u.follow k pos p = some l) (hl : u.get l = some .dir ∨ t.get l ≠ none)
    (hstart : t.get (if p.root then [] else pos) = some .dir)
    (hv : ∀ v ∈ t.trail k pos p, t.get v = none → u.get v ≠ some .dir) :
    t.follow k pos p = some l ∧ (u.get l = some .dir → t.get l = some .dir) := by
  induction k generalizing pos p l with
  | zero =>
      rw [follow_eq] at h ⊢
      exact @Builds.walk_back α t u hb _ _ (fun _ _ => none) (fun _ _ => [])
        (fun _ _ _ hl => by cases hl) (fun _ _ _ hl => by cases hl) _ _ _ h hl (fun _ => hstart) hv
  | succ k ih =>
      rw [follow_eq] at h ⊢
      refine hb.walk_back (fun d p l hl => ?_) (fun d p l hl hend hd hvd => ih hl hend ?_ hvd)
        h hl (fun _ => hstart) hv
      · rw [← locate_of_linkAt hb.link]
        exact locate_of_follow hl
      · split
        · exact t.get_root
        · exact hd

end FileTree

namespace Kernel

open FileTree

theorem write_builds {k : Kernel} {t t' : FileTree α} {p : Path} {a : α}
    (h : k.write t p a = .ok t') : Builds t t' := by
  obtain ⟨d, n, hp, hd, hg⟩ := write_spec h
  obtain ⟨-, hl, -⟩ := place_spec hp
  exact builds_of_leaf hd hl (by rw [hg, if_pos rfl]) fun l hne => by rw [hg, if_neg hne]

/-- What has been written is where its path leads. -/
theorem stat_of_write {k : Kernel} {t t' : FileTree α} {p : Path} {a : α}
    (h : k.write t p a = .ok t') : ∃ l, k.stat t' p = some l ∧ t'.get l = some (.file a) := by
  obtain ⟨d, n, hp, hd, hg⟩ := write_spec h
  have hx : t'.get (d ++ [n]) = some (.file a) := by rw [hg, if_pos rfl]
  exact ⟨d ++ [n], stat_of_place hx hd (fun l hne => by rw [hg, if_neg hne]) hp, hx⟩

theorem stat_builds {k : Kernel} {t t' : FileTree α} (hb : Builds t t') {p : Path} {l : Loc}
    (h : k.stat t p = some l) : k.stat t' p = some l := by
  obtain ⟨hs, hf⟩ := stat_eq_some.mp h
  exact stat_eq_some.mpr ⟨hb.dir _ hs, hb.follow hf⟩

theorem locate_builds {k : Kernel} {t t' : FileTree α} (hb : Builds t t') (p : Path) :
    k.locate t' p = k.locate t p := locate_of_linkAt hb.link _ _ _

theorem trail_builds {k : Kernel} {t t' : FileTree α} (hb : Builds t t') (p : Path) :
    k.trail t' p = k.trail t p := (locate_congr fun v _ => hb.link v).2

theorem is_dir_builds {k : Kernel} {t t' : FileTree α} (hb : Builds t t') {p : Path}
    (h : k.is_dir t p = true) : k.is_dir t' p = true := by
  obtain ⟨l, hs, hl⟩ := is_dir_iff.mp h
  exact is_dir_iff.mpr ⟨l, stat_builds hb hs, hb.dir l hl⟩

theorem slot_builds {k : Kernel} {t t' : FileTree α} (hb : Builds t t') {p : Path}
    {s : Loc × String} (h : k.slot t p = some s) : k.slot t' p = some s := by
  obtain ⟨d, n⟩ := s
  obtain ⟨q, rfl, hs, hd⟩ := slot_spec h
  exact slot_child_eq_some.mpr ⟨stat_builds hb hs, hb.dir d hd, rfl⟩

theorem entry_at_builds {k : Kernel} {t t' : FileTree α} (hb : Builds t t') {p : Path} {l : Loc}
    (h : k.entry_at t p = some l) : k.entry_at t' p = some l := by
  unfold entry_at at h ⊢
  split
  · rename_i n hn
    rw [hn] at h
    obtain ⟨s, hs, rfl⟩ := Option.map_eq_some_iff.mp h
    rw [slot_builds hb hs, Option.map_some]
  · rename_i hn
    split at h
    · rename_i n hn'
      exact absurd hn' (hn n)
    · exact stat_builds hb h

/-- A path that has come to lead to a directory comes by a new one. -/
theorem dir_back {k : Kernel} {t u : FileTree α} (hb : Builds t u) {p : Path} {l : Loc}
    (h : k.stat u p = some l) (hl : u.get l = some .dir) (hs : t.get (k.start p) = some .dir)
    (hv : ∀ v ∈ k.trail t p, t.get v = none → u.get v ≠ some .dir) :
    k.stat t p = some l ∧ t.get l = some .dir := by
  obtain ⟨hf, hd⟩ := hb.follow_back (stat_eq_some.mp h).2 (.inl hl) hs hv
  exact ⟨stat_eq_some.mpr ⟨hs, hf⟩, hd hl⟩

end Kernel

/-! ## A file in place of a link

Where a link to a file gives way to a file, whatever led through the link ends at
the file now, and everything else leads where it did. -/

namespace FileTree

theorem walk_from_leaf_nil {t : FileTree α} {link : Loc → Path → Option Loc} {x l : Loc}
    {cs : List Component} (hx : t.get x ≠ some .dir) (h : t.walk link x cs = some l) : cs = [] := by
  cases cs with
  | nil => rfl
  | cons c cs =>
      cases c with
      | curDir => simp [FileTree.walk, hx] at h
      | parentDir => simp [FileTree.walk, hx] at h
      | normal n => simp [walk_normal, t.get_below (List.cons_ne_nil n []) hx] at h

section Replaced

variable {t t' : FileTree α} {d L : Loc} {n : String} {tgt : Path} {a : α}

theorem walk_of_replaced (hs : t.get (d ++ [n]) = some (.symlink tgt))
    (hx : t'.get (d ++ [n]) = some (.file a)) (hrest : ∀ l, l ≠ d ++ [n] → t'.get l = t.get l)
    (hL : t.get L ≠ some .dir) {link link' : Loc → Path → Option Loc}
    (hlast : ∀ m, link d tgt = some m → m = L)
    (hlink : ∀ pos p m, link pos p = some m →
      link' pos p = some m ∨ link' pos p = some (d ++ [n]) ∧ m = L)
    {pos l : Loc} {cs : List Component} (h : t.walk link pos cs = some l) :
    t'.walk link' pos cs = some l ∨ t'.walk link' pos cs = some (d ++ [n]) ∧ l = L := by
  have hdir : ∀ q, t.get q = some .dir → t'.get q = some .dir := by
    intro q hq
    have hne : q ≠ d ++ [n] := by
      rintro rfl
      rw [hs] at hq
      cases hq
    rw [hrest q hne, hq]
  -- the two ways part only at the link, and there the way has come to its end
  induction cs generalizing pos with
  | nil => exact .inl h
  | cons c cs ih =>
      cases c with
      | curDir =>
          simp only [FileTree.walk] at h ⊢
          split at h
          · rename_i hd
            rw [if_pos (hdir _ hd)]
            exact ih h
          · cases h
      | parentDir =>
          simp only [FileTree.walk] at h ⊢
          split at h
          · rename_i hd
            rw [if_pos (hdir _ hd)]
            exact ih h
          · cases h
      | normal m =>
          rw [walk_normal] at h ⊢
          by_cases hm : pos ++ [m] = d ++ [n]
          · -- the link itself: it led to a file, so nothing comes after it
            obtain ⟨rfl, hmn⟩ := List.append_inj' hm rfl
            obtain rfl := List.singleton_inj.mp hmn
            rw [hs] at h
            obtain ⟨q, hq, hw⟩ := Option.bind_eq_some_iff.mp h
            obtain rfl := hlast q hq
            obtain rfl := walk_from_leaf_nil hL hw
            cases hw
            rw [hx]
            exact .inr ⟨rfl, rfl⟩
          · rw [hrest _ hm]
            cases hg : t.get (pos ++ [m]) with
            | none =>
                rw [hg] at h
                cases h
            | some e =>
                rw [hg] at h
                cases e with
                | symlink p =>
                    obtain ⟨q, hq, hw⟩ := Option.bind_eq_some_iff.mp h
                    -- another link on the way may lead through the one that is gone
                    rcases hlink _ _ _ hq with hq' | ⟨hq', rfl⟩
                    · simpa only [hq', Option.bind_some] using ih hw
                    · obtain rfl := walk_from_leaf_nil hL hw
                      cases hw
                      exact .inr ⟨by simp [hq'], rfl⟩
                | dir => exact ih h
                | file b => exact ih h

theorem follow_of_replaced (hs : t.get (d ++ [n]) = some (.symlink tgt))
    (hx : t'.get (d ++ [n]) = some (.file a)) (hrest : ∀ l, l ≠ d ++ [n] → t'.get l = t.get l)
    (hL : t.get L ≠ some .dir) {k : Nat} (hlast : ∀ j, j < k → ∀ m, t.follow j d tgt = some m → m = L)
    {pos l : Loc} {p : Path} (h : t.follow k pos p = some l) :
    t'.follow k pos p = some l ∨ t'.follow k pos p = some (d ++ [n]) ∧ l = L := by
  induction k generalizing pos p l with
  | zero =>
      rw [follow_eq] at h ⊢
      exact walk_of_replaced hs hx hrest hL (fun m hm => by cases hm) (fun _ _ _ hm => by cases hm) h
  | succ k ih =>
      rw [follow_eq] at h ⊢
      exact walk_of_replaced hs hx hrest hL (hlast k (Nat.lt_succ_self k))
        (fun _ _ _ hm => ih (fun j hj => hlast j (Nat.lt_succ_of_lt hj)) hm) h

end Replaced

end FileTree

namespace Kernel

open FileTree

/-- What led somewhere before a file took the place of a link leads there still,
or to that file if it led to the file behind the link. -/
theorem stat_of_replaced {k : Kernel} {t t' : FileTree α} {d L : Loc} {n : String} {tgt : Path}
    {a : α} {q : Path} (hslot : k.slot t q = some (d, n)) (hq : k.stat t q = some L)
    (hs : t.get (d ++ [n]) = some (.symlink tgt)) (hL : t.get L ≠ some .dir)
    (hx : t'.get (d ++ [n]) = some (.file a)) (hrest : ∀ l, l ≠ d ++ [n] → t'.get l = t.get l)
    {p : Path} {l : Loc} (h : k.stat t p = some l) :
    k.stat t' p = some l ∨ k.stat t' p = some (d ++ [n]) ∧ l = L := by
  obtain ⟨hstart, hf⟩ := stat_eq_some.mp h
  have hstart' : t'.get (k.start p) = some .dir := by
    have hne : k.start p ≠ d ++ [n] := by
      intro he
      rw [he, hs] at hstart
      cases hstart
    rw [hrest _ hne, hstart]
  have hlast : ∀ j, j < k.links → ∀ m, t.follow j d tgt = some m → m = L := by
    intro j hj m hm
    obtain ⟨q, rfl, hd, -⟩ := slot_spec hslot
    rw [stat_child, hd, Option.bind_some, walk_normal, hs] at hq
    obtain ⟨m', hm', hw⟩ := Option.bind_eq_some_iff.mp hq
    cases hw
    obtain ⟨i, hi⟩ := Nat.exists_eq_succ_of_ne_zero (Nat.ne_of_gt
      (Nat.lt_of_le_of_lt (Nat.zero_le j) hj))
    rw [hi] at hm' hj
    have hmono : t.follow i d tgt = some m := by
      refine Nat.le_induction hm (fun j' _ hj' => follow_mono hj') i (Nat.le_of_lt_succ hj)
    rw [show t.viaLink (i + 1) d tgt = t.follow i d tgt from rfl, hmono] at hm'
    exact Option.some.inj hm'
  rcases follow_of_replaced hs hx hrest hL hlast hf with hf' | ⟨hf', hl⟩
  · exact .inl (stat_eq_some.mpr ⟨hstart', hf'⟩)
  · exact .inr ⟨stat_eq_some.mpr ⟨hstart', hf'⟩, hl⟩

end Kernel

end WebDavs.Posix
