/-
What a path leads to.

`follow` is path resolution as `stat(2)` does it: every symbolic link is
followed, the last one included. `locate` is the same walk with missing entries
walked through as if they were directories: the place a path *would* lead to
once its missing directories are made. It reads nothing of a tree but its
symbolic links, so it does not move while files come and go; that is what
`locate_congr` says, and what makes it the handle by which a long-running job's
path is named. `follow` can only ever give the place `locate` gives
(`locate_of_follow`).

Linux limits how many links one resolution follows. Here it is a bound on how deeply they
nest, a parameter that no result fixes: links one after the other lead on, however many
they are, and links that lead back to themselves lead nowhere.
-/
import WebDavs.Posix.Tree

set_option autoImplicit false

namespace WebDavs.Posix

variable {α : Type}

namespace FileTree

/-- The target of the symbolic link at `l`, if there is one. -/
def linkAt (t : FileTree α) (l : Loc) : Option Path :=
  match t.get l with
  | some (.symlink tgt) => some tgt
  | _ => none

theorem linkAt_eq_some {t : FileTree α} {l : Loc} {p : Path} :
    t.linkAt l = some p ↔ t.get l = some (.symlink p) := by
  unfold linkAt
  split <;> simp_all

theorem linkAt_of_get_eq {t t' : FileTree α} {l : Loc} (h : t'.get l = t.get l) :
    t'.linkAt l = t.linkAt l := by
  unfold linkAt
  rw [h]

/-- What is there and is no link. -/
theorem linkAt_of_ne_symlink {t : FileTree α} {l : Loc} {e : Entry α} (h : t.get l = some e)
    (hsym : ∀ tgt, e ≠ .symlink tgt) : t.linkAt l = none := by
  unfold linkAt
  rw [h]
  cases e with
  | symlink tgt => exact absurd rfl (hsym tgt)
  | _ => rfl

theorem linkAt_of_dir {t : FileTree α} {l : Loc} (h : t.get l = some .dir) : t.linkAt l = none :=
  linkAt_of_ne_symlink h (by simp)

theorem linkAt_of_file {t : FileTree α} {l : Loc} {a : α} (h : t.get l = some (.file a)) :
    t.linkAt l = none := linkAt_of_ne_symlink h (by simp)

theorem linkAt_of_none {t : FileTree α} {l : Loc} (h : t.get l = none) : t.linkAt l = none := by
  unfold linkAt
  rw [h]

/-! ## Following a path -/

/-- Walk a list of components from `pos`. `link` resolves the target of a
symbolic link met in a directory. -/
def walk (t : FileTree α) (link : Loc → Path → Option Loc) : Loc → List Component → Option Loc
  | pos, [] => some pos
  | pos, .curDir :: cs => if t.get pos = some .dir then walk t link pos cs else none
  | pos, .parentDir :: cs => if t.get pos = some .dir then walk t link pos.dropLast cs else none
  | pos, .normal n :: cs =>
    match t.get (pos ++ [n]) with
    | none => none
    | some (.symlink tgt) => (link pos tgt).bind fun l => walk t link l cs
    | some _ => walk t link (pos ++ [n]) cs

/-- Resolve `p` from the directory `pos`, following links nested at most `k`
deep. -/
def follow (t : FileTree α) : Nat → Loc → Path → Option Loc
  | 0, pos, p => t.walk (fun _ _ => none) (if p.root then [] else pos) p.comps
  | k + 1, pos, p => t.walk (t.follow k) (if p.root then [] else pos) p.comps

/-- How `follow k` resolves the links it meets. -/
def viaLink (t : FileTree α) : Nat → Loc → Path → Option Loc
  | 0 => fun _ _ => none
  | k + 1 => t.follow k

theorem follow_eq (t : FileTree α) (k : Nat) (pos : Loc) (p : Path) :
    t.follow k pos p = t.walk (t.viaLink k) (if p.root then [] else pos) p.comps := by
  cases k <;> rfl

section Walk

variable (t : FileTree α) (link : Loc → Path → Option Loc)

@[simp] theorem walk_nil (pos : Loc) : t.walk link pos [] = some pos := rfl

theorem walk_normal (pos : Loc) (n : String) (cs : List Component) :
    t.walk link pos (.normal n :: cs)
      = match t.get (pos ++ [n]) with
        | none => none
        | some (.symlink tgt) => (link pos tgt).bind fun l => t.walk link l cs
        | some _ => t.walk link (pos ++ [n]) cs := rfl

theorem walk_append (pos : Loc) (cs ds : List Component) :
    t.walk link pos (cs ++ ds) = (t.walk link pos cs).bind fun l => t.walk link l ds := by
  induction cs generalizing pos with
  | nil => rfl
  | cons c cs ih =>
      cases c with
      | curDir =>
          simp only [List.cons_append, walk]
          split
          · exact ih pos
          · rfl
      | parentDir =>
          simp only [List.cons_append, walk]
          split
          · exact ih _
          · rfl
      | normal n =>
          simp only [List.cons_append, walk_normal]
          split
          · rfl
          · cases link pos _ with
            | none => rfl
            | some l => exact ih l
          · exact ih _

end Walk

/-- Following `p` and then names below it. -/
theorem follow_down (t : FileTree α) (k : Nat) (pos : Loc) (p : Path) (r : List String) :
    t.follow k pos (p.down r)
      = (t.follow k pos p).bind fun l => t.walk (t.viaLink k) l (Path.names r) := by
  rw [follow_eq, follow_eq]
  exact walk_append t _ _ _ _

theorem follow_child (t : FileTree α) (k : Nat) (pos : Loc) (p : Path) (n : String) :
    t.follow k pos (p.child n)
      = (t.follow k pos p).bind fun l => t.walk (t.viaLink k) l [.normal n] :=
  t.follow_down k pos p [n]

/-- One name from a directory: a directory or a file is reached as itself. -/
theorem walk_single {t : FileTree α} {link : Loc → Path → Option Loc} {l : Loc} {n : String}
    {e : Entry α} (he : t.get (l ++ [n]) = some e) (hs : ∀ tgt, e ≠ .symlink tgt) :
    t.walk link l [.normal n] = some (l ++ [n]) := by
  rw [walk_normal, he]
  cases e with
  | dir => rfl
  | file a => rfl
  | symlink tgt => exact absurd rfl (hs tgt)

/-- Names that run through real directories lead where they say. -/
theorem walk_names {t : FileTree α} {link : Loc → Path → Option Loc} {l r : Loc} {e : Entry α}
    (he : t.get (l ++ r) = some e) (hs : ∀ tgt, e ≠ .symlink tgt) :
    t.walk link l (Path.names r) = some (l ++ r) := by
  induction r generalizing l with
  | nil => simp
  | cons n r ih =>
      have he' : t.get ((l ++ [n]) ++ r) = some e := by simpa using he
      rw [Path.names_cons, walk_normal]
      by_cases hr : r = []
      · subst hr
        rw [List.append_nil] at he'
        rw [he']
        cases e with
        | dir => rfl
        | file a => rfl
        | symlink tgt => exact absurd rfl (hs tgt)
      · rw [t.get_above hr he']
        simpa using ih he'

/-- What a resolved path leads to exists and is not a link, when the walk starts
at something of that kind. -/
theorem walk_spec {t : FileTree α} {link : Loc → Path → Option Loc}
    (hlink : ∀ d p l, t.get d = some .dir → link d p = some l →
      ∃ e, t.get l = some e ∧ ∀ tgt, e ≠ .symlink tgt)
    {pos l : Loc} {cs : List Component} {e : Entry α} (he : t.get pos = some e)
    (hs : ∀ tgt, e ≠ .symlink tgt) (h : t.walk link pos cs = some l) :
    ∃ e, t.get l = some e ∧ ∀ tgt, e ≠ .symlink tgt := by
  induction cs generalizing pos e with
  | nil =>
      cases h
      exact ⟨e, he, hs⟩
  | cons c cs ih =>
      cases c with
      | curDir =>
          simp only [walk] at h
          split at h
          · exact ih he hs h
          · cases h
      | parentDir =>
          simp only [walk] at h
          split at h
          · rename_i hd
            exact ih (t.get_dropLast hd) (by simp) h
          · cases h
      | normal n =>
          rw [walk_normal] at h
          split at h
          · cases h
          · rename_i tgt hg
            obtain ⟨m, hm, hw⟩ := Option.bind_eq_some_iff.mp h
            obtain ⟨e', he', hs'⟩ := hlink pos tgt m (t.get_parent hg) hm
            exact ih he' hs' hw
          · rename_i e' hsym hg
            exact ih hg hsym h

theorem follow_spec {t : FileTree α} {k : Nat} {pos l : Loc} {p : Path}
    (hpos : t.get pos = some .dir) (h : t.follow k pos p = some l) :
    ∃ e, t.get l = some e ∧ ∀ tgt, e ≠ .symlink tgt := by
  induction k generalizing pos p l with
  | zero =>
      rw [follow_eq] at h
      have hp : t.get (if p.root then [] else pos) = some .dir := by
        split
        · exact t.get_root
        · exact hpos
      exact walk_spec (fun _ _ _ _ hl => by cases hl) hp (by simp) h
  | succ k ih =>
      rw [follow_eq] at h
      have hp : t.get (if p.root then [] else pos) = some .dir := by
        split
        · exact t.get_root
        · exact hpos
      exact walk_spec (fun _ _ _ hd hl => ih hd hl) hp (by simp) h

/-! ## Where a path would lead -/

/-- The place a list of components names, walking through missing entries as if
they were directories. -/
def aim (t : FileTree α) (link : Loc → Path → Option Loc) : Loc → List Component → Option Loc
  | pos, [] => some pos
  | pos, .curDir :: cs => aim t link pos cs
  | pos, .parentDir :: cs => aim t link pos.dropLast cs
  | pos, .normal n :: cs =>
    match t.linkAt (pos ++ [n]) with
    | some tgt => (link pos tgt).bind fun l => aim t link l cs
    | none => aim t link (pos ++ [n]) cs

/-- The place `p` names from `pos`, whether or not anything is there. -/
def locate (t : FileTree α) : Nat → Loc → Path → Option Loc
  | 0, pos, p => t.aim (fun _ _ => none) (if p.root then [] else pos) p.comps
  | k + 1, pos, p => t.aim (t.locate k) (if p.root then [] else pos) p.comps

/-- How `locate k` resolves the links it meets. -/
def aimLink (t : FileTree α) : Nat → Loc → Path → Option Loc
  | 0 => fun _ _ => none
  | k + 1 => t.locate k

theorem locate_eq (t : FileTree α) (k : Nat) (pos : Loc) (p : Path) :
    t.locate k pos p = t.aim (t.aimLink k) (if p.root then [] else pos) p.comps := by
  cases k <;> rfl

theorem aim_append (t : FileTree α) (link : Loc → Path → Option Loc) (pos : Loc)
    (cs ds : List Component) :
    t.aim link pos (cs ++ ds) = (t.aim link pos cs).bind fun l => t.aim link l ds := by
  induction cs generalizing pos with
  | nil => rfl
  | cons c cs ih =>
      cases c with
      | curDir => exact ih pos
      | parentDir => exact ih _
      | normal n =>
          simp only [List.cons_append, aim]
          split
          · cases link pos _ with
            | none => rfl
            | some l => exact ih l
          · exact ih _

theorem locate_down (t : FileTree α) (k : Nat) (pos : Loc) (p : Path) (r : List String) :
    t.locate k pos (p.down r)
      = (t.locate k pos p).bind fun l => t.aim (t.aimLink k) l (Path.names r) := by
  rw [locate_eq, locate_eq]
  exact aim_append t _ _ _ _

/-- Names that meet no link lead straight down. -/
theorem aim_names {t : FileTree α} {link : Loc → Path → Option Loc} {l r : Loc}
    (h : ∀ s, s ≠ [] → s <+: r → t.linkAt (l ++ s) = none) :
    t.aim link l (Path.names r) = some (l ++ r) := by
  induction r generalizing l with
  | nil => simp [aim]
  | cons n r ih =>
      have hn : t.linkAt (l ++ [n]) = none := h [n] (by simp) (by simp)
      rw [Path.names_cons, aim, hn]
      have ih' := ih (l := l ++ [n]) fun s _ hsr => by
        have := h (n :: s) (by simp) (by simpa using hsr)
        simpa using this
      simpa using ih'

theorem locate_down_names {t : FileTree α} {k : Nat} {pos l r : Loc} {p : Path}
    (hp : t.locate k pos p = some l)
    (h : ∀ s, s ≠ [] → s <+: r → t.linkAt (l ++ s) = none) :
    t.locate k pos (p.down r) = some (l ++ r) := by
  rw [locate_down, hp]
  exact aim_names h

/-- A path that leads somewhere leads to the place it names. -/
theorem aim_of_walk {t : FileTree α} {link link' : Loc → Path → Option Loc}
    (hlink : ∀ d p l, link d p = some l → link' d p = some l)
    {pos l : Loc} {cs : List Component} (h : t.walk link pos cs = some l) :
    t.aim link' pos cs = some l := by
  induction cs generalizing pos with
  | nil => exact h
  | cons c cs ih =>
      cases c with
      | curDir =>
          simp only [walk] at h
          split at h
          · exact ih h
          · cases h
      | parentDir =>
          simp only [walk] at h
          split at h
          · exact ih h
          · cases h
      | normal n =>
          rw [walk_normal] at h
          split at h
          · cases h
          · rename_i tgt hg
            obtain ⟨m, hm, hw⟩ := Option.bind_eq_some_iff.mp h
            rw [aim, linkAt_eq_some.mpr hg]
            simpa only [hlink _ _ _ hm, Option.bind_some] using ih hw
          · rename_i e hsym hg
            rw [aim, linkAt_of_ne_symlink hg hsym]
            exact ih h

theorem locate_of_follow {t : FileTree α} {k : Nat} {pos l : Loc} {p : Path}
    (h : t.follow k pos p = some l) : t.locate k pos p = some l := by
  induction k generalizing pos p l with
  | zero =>
      rw [follow_eq] at h
      rw [locate_eq]
      exact aim_of_walk (fun _ _ _ hl => by cases hl) h
  | succ k ih =>
      rw [follow_eq] at h
      rw [locate_eq]
      exact aim_of_walk (fun _ _ _ hl => ih hl) h

/-! ## The places a path leads through -/

/-- The places `aim` looks at, in order. -/
def trailFrom (t : FileTree α) (link : Loc → Path → Option Loc) (trail : Loc → Path → List Loc) :
    Loc → List Component → List Loc
  | _, [] => []
  | pos, .curDir :: cs => trailFrom t link trail pos cs
  | pos, .parentDir :: cs => trailFrom t link trail pos.dropLast cs
  | pos, .normal n :: cs =>
    (pos ++ [n]) :: match t.linkAt (pos ++ [n]) with
    | some tgt => trail pos tgt ++ ((link pos tgt).map fun l => trailFrom t link trail l cs).getD []
    | none => trailFrom t link trail (pos ++ [n]) cs

/-- The places `p` leads through, links and their targets' places included. -/
def trail (t : FileTree α) : Nat → Loc → Path → List Loc
  | 0, pos, p => t.trailFrom (fun _ _ => none) (fun _ _ => []) (if p.root then [] else pos) p.comps
  | k + 1, pos, p => t.trailFrom (t.locate k) (t.trail k) (if p.root then [] else pos) p.comps

/-- `locate` reads nothing but the links on its trail. -/
theorem aim_congr {t t' : FileTree α} {link link' : Loc → Path → Option Loc}
    {tr tr' : Loc → Path → List Loc}
    (hlink : ∀ d p, (∀ v ∈ tr d p, t'.linkAt v = t.linkAt v) →
      link' d p = link d p ∧ tr' d p = tr d p)
    {pos : Loc} {cs : List Component}
    (h : ∀ v ∈ t.trailFrom link tr pos cs, t'.linkAt v = t.linkAt v) :
    t'.aim link' pos cs = t.aim link pos cs
      ∧ t'.trailFrom link' tr' pos cs = t.trailFrom link tr pos cs := by
  induction cs generalizing pos with
  | nil => exact ⟨rfl, rfl⟩
  | cons c cs ih =>
      cases c with
      | curDir => exact ih h
      | parentDir => exact ih h
      | normal n =>
          have hn : t'.linkAt (pos ++ [n]) = t.linkAt (pos ++ [n]) := h _ List.mem_cons_self
          simp only [trailFrom] at h
          simp only [aim, trailFrom, hn]
          cases hl : t.linkAt (pos ++ [n]) with
          | none =>
              simp only [hl] at h ⊢
              have := ih fun v hv => h v (List.mem_cons_of_mem _ hv)
              exact ⟨this.1, by rw [this.2]⟩
          | some tgt =>
              simp only [hl] at h ⊢
              obtain ⟨h1, h2⟩ := hlink pos tgt fun v hv =>
                h v (List.mem_cons_of_mem _ (List.mem_append_left _ hv))
              rw [h1, h2]
              cases hm : link pos tgt with
              | none => exact ⟨rfl, rfl⟩
              | some m =>
                  have := @ih m fun v hv =>
                    h v (List.mem_cons_of_mem _ (List.mem_append_right _ (by simpa [hm] using hv)))
                  simp only [Option.bind_some, Option.map_some, Option.getD_some, this.1, this.2,
                    and_self]

theorem locate_congr {t t' : FileTree α} {k : Nat} {pos : Loc} {p : Path}
    (h : ∀ v ∈ t.trail k pos p, t'.linkAt v = t.linkAt v) :
    t'.locate k pos p = t.locate k pos p ∧ t'.trail k pos p = t.trail k pos p := by
  induction k generalizing pos p with
  | zero => exact aim_congr (fun _ _ _ => ⟨rfl, rfl⟩) h
  | succ k ih => exact aim_congr (fun _ _ hv => ih hv) h

/-! ## The directories of a tree

A walk that ends in a directory has only directories, and links that lead to
directories, behind it. So whatever happens to the other entries of a tree, such
a walk keeps its way. -/

/-- Whether the name `n` in the directory `d` leads to a directory. -/
def LeadsToDir (t : FileTree α) (k : Nat) (d : Loc) (n : String) : Prop :=
  ∃ l, t.walk (t.viaLink k) d [.normal n] = some l ∧ t.get l = some .dir

/-- `t'` still has every directory, and every link to a directory, of `t`. -/
def KeepsDirs (k : Nat) (t t' : FileTree α) : Prop :=
  ∀ d n, t.LeadsToDir k d n → t'.get (d ++ [n]) = t.get (d ++ [n])

theorem leadsToDir_of_get {t : FileTree α} {k : Nat} {d : Loc} {n : String}
    (h : t.get (d ++ [n]) = some .dir) : t.LeadsToDir k d n :=
  ⟨d ++ [n], walk_single h (by simp), h⟩

/-- A name that leads to a directory is taken. -/
theorem get_of_leads {t : FileTree α} {k : Nat} {d : Loc} {n : String} (h : t.LeadsToDir k d n) :
    t.get (d ++ [n]) ≠ none := by
  obtain ⟨l, hw, -⟩ := h
  intro hnone
  rw [walk_normal, hnone] at hw
  cases hw

/-- A name that leads to a directory is one, or a link. -/
theorem dir_of_leads {t : FileTree α} {k : Nat} {d : Loc} {n : String} (h : t.LeadsToDir k d n)
    (hl : t.linkAt (d ++ [n]) = none) : t.get (d ++ [n]) = some .dir := by
  obtain ⟨l, hw, hdir⟩ := h
  rw [walk_normal] at hw
  split at hw
  · cases hw
  · rename_i tgt hg
    rw [linkAt_eq_some.mpr hg] at hl
    cases hl
  · rw [walk_nil, Option.some.injEq] at hw
    rw [hw, hdir]

theorem KeepsDirs.refl {k : Nat} (t : FileTree α) : KeepsDirs k t t := fun _ _ _ => rfl

theorem KeepsDirs.get_dir {k : Nat} {t t' : FileTree α} (hk : KeepsDirs k t t') {l : Loc}
    (h : t.get l = some .dir) : t'.get l = some .dir := by
  rcases List.eq_nil_or_concat l with rfl | ⟨d, n, rfl⟩
  · exact t'.get_root
  · rw [List.concat_eq_append] at h ⊢
    rw [hk d n (leadsToDir_of_get h), h]

/-- **Where the entries of `t` are** in the tree `u`, a file perhaps with other bytes, a
walk leads where it led. -/
theorem walk_carried {t u : FileTree α} (hdir : ∀ l, t.get l = some .dir → u.get l = some .dir)
    (hsym : ∀ l p, t.get l = some (.symlink p) → u.get l = some (.symlink p))
    (hfile : ∀ l a, t.get l = some (.file a) → ∃ b, u.get l = some (.file b))
    {link link' : Loc → Path → Option Loc}
    (hlink : ∀ d p l, link d p = some l → link' d p = some l) {pos l : Loc}
    {cs : List Component} (h : t.walk link pos cs = some l) : u.walk link' pos cs = some l := by
  induction cs generalizing pos with
  | nil => exact h
  | cons c cs ih =>
      cases c with
      | curDir =>
          simp only [walk] at h ⊢
          split at h
          · rename_i hd
            rw [if_pos (hdir _ hd)]
            exact ih h
          · cases h
      | parentDir =>
          simp only [walk] at h ⊢
          split at h
          · rename_i hd
            rw [if_pos (hdir _ hd)]
            exact ih h
          · cases h
      | normal n =>
          rw [walk_normal] at h ⊢
          cases hg : t.get (pos ++ [n]) with
          | none =>
              rw [hg] at h
              cases h
          | some e =>
              rw [hg] at h
              cases e with
              | dir =>
                  rw [hdir _ hg]
                  exact ih h
              | file a =>
                  -- the walk looks at no bytes
                  obtain ⟨b, hb⟩ := hfile _ a hg
                  rw [hb]
                  exact ih h
              | symlink p =>
                  obtain ⟨m, hm, hw⟩ := Option.bind_eq_some_iff.mp h
                  rw [hsym _ p hg]
                  exact Option.bind_eq_some_iff.mpr ⟨m, hlink _ _ _ hm, ih hw⟩

theorem follow_carried {t u : FileTree α} (hdir : ∀ l, t.get l = some .dir → u.get l = some .dir)
    (hsym : ∀ l p, t.get l = some (.symlink p) → u.get l = some (.symlink p))
    (hfile : ∀ l a, t.get l = some (.file a) → ∃ b, u.get l = some (.file b)) {k : Nat}
    {pos l : Loc} {p : Path} (h : t.follow k pos p = some l) : u.follow k pos p = some l := by
  induction k generalizing pos p l with
  | zero =>
      rw [follow_eq] at h ⊢
      exact walk_carried hdir hsym hfile (fun _ _ _ hl => by cases hl) h
  | succ k ih =>
      rw [follow_eq] at h ⊢
      exact walk_carried hdir hsym hfile (fun _ _ _ hl => ih hl) h

/-- A larger bound on links resolves what a smaller one does. -/
theorem walk_mono {t : FileTree α} {link link' : Loc → Path → Option Loc}
    (hlink : ∀ d p l, link d p = some l → link' d p = some l) {pos l : Loc}
    {cs : List Component} (h : t.walk link pos cs = some l) : t.walk link' pos cs = some l :=
  walk_carried (fun _ hl => hl) (fun _ _ hl => hl) (fun _ a hl => ⟨a, hl⟩) hlink h

theorem follow_mono {t : FileTree α} {k : Nat} {pos l : Loc} {p : Path}
    (h : t.follow k pos p = some l) : t.follow (k + 1) pos p = some l := by
  induction k generalizing pos p l with
  | zero =>
      rw [follow_eq] at h ⊢
      exact walk_mono (fun _ _ _ hl => by cases hl) h
  | succ k ih =>
      rw [follow_eq] at h ⊢
      exact walk_mono (fun _ _ _ hl => ih hl) h

theorem viaLink_mono {t : FileTree α} {k : Nat} {d l : Loc} {p : Path}
    (h : t.viaLink k d p = some l) : t.viaLink (k + 1) d p = some l := by
  cases k with
  | zero => cases h
  | succ k => exact follow_mono h

/-- A walk that ends in a directory starts in one. -/
theorem walk_start_dir {t : FileTree α} {link : Loc → Path → Option Loc} {pos l : Loc}
    {cs : List Component} (h : t.walk link pos cs = some l) (hl : t.get l = some .dir) :
    t.get pos = some .dir := by
  cases cs with
  | nil =>
      cases h
      exact hl
  | cons c cs =>
      cases c with
      | curDir =>
          simp only [walk] at h
          split at h
          · assumption
          · cases h
      | parentDir =>
          simp only [walk] at h
          split at h
          · assumption
          · cases h
      | normal n =>
          rw [walk_normal] at h
          split at h
          · cases h
          · rename_i hg
            exact t.get_parent hg
          · rename_i hg
            exact t.get_parent hg

theorem walk_keepsDirs {t t' : FileTree α} {link link' : Loc → Path → Option Loc}
    (hkeep : ∀ d n l, t.walk link d [.normal n] = some l → t.get l = some .dir →
      t'.get (d ++ [n]) = t.get (d ++ [n]))
    (hdir : ∀ l, t.get l = some .dir → t'.get l = some .dir)
    (hlink : ∀ d p l, link d p = some l → t.get l = some .dir → link' d p = some l)
    {pos l : Loc} {cs : List Component} (h : t.walk link pos cs = some l)
    (hl : t.get l = some .dir) : t'.walk link' pos cs = some l := by
  induction cs generalizing pos with
  | nil => exact h
  | cons c cs ih =>
      have hpos := walk_start_dir h hl
      cases c with
      | curDir =>
          simp only [walk, hpos, hdir _ hpos, if_true] at h ⊢
          exact ih h
      | parentDir =>
          simp only [walk, hpos, hdir _ hpos, if_true] at h ⊢
          exact ih h
      | normal n =>
          rw [walk_normal] at h
          split at h
          · cases h
          · rename_i tgt hg
            obtain ⟨m, hm, hw⟩ := Option.bind_eq_some_iff.mp h
            have hmd := walk_start_dir hw hl
            have hstep : t.walk link pos [.normal n] = some m := by
              rw [walk_normal, hg]
              simp only [hm, Option.bind_some, walk_nil]
            rw [walk_normal, hkeep _ _ _ hstep hmd, hg]
            simpa only [hlink _ _ _ hm hmd, Option.bind_some] using ih hw
          · rename_i e hsym hg
            have hnd := walk_start_dir h hl
            have hstep : t.walk link pos [.normal n] = some (pos ++ [n]) :=
              walk_single hnd (by simp)
            rw [walk_normal, hkeep _ _ _ hstep hnd, hnd]
            exact ih h

theorem leadsToDir_of_walk {t : FileTree α} {j k : Nat} (hj : j ≤ k) {d m : Loc} {n : String}
    (h : t.walk (t.viaLink j) d [.normal n] = some m) (hm : t.get m = some .dir) :
    t.LeadsToDir k d n := by
  have hup : ∀ i d p l, t.viaLink j d p = some l → t.viaLink (j + i) d p = some l := by
    intro i d p l hv
    induction i with
    | zero => exact hv
    | succ i ih => exact viaLink_mono ih
  refine ⟨m, walk_mono (fun d p l hv => ?_) h, hm⟩
  have := hup (k - j) d p l hv
  rwa [Nat.add_sub_cancel' hj] at this

/-- A path that leads to a directory leads there as long as the directories
stay. -/
theorem follow_keepsDirs {t t' : FileTree α} {k j : Nat} (hk : KeepsDirs k t t') (hj : j ≤ k)
    {pos l : Loc} {p : Path} (h : t.follow j pos p = some l) (hl : t.get l = some .dir) :
    t'.follow j pos p = some l := by
  rw [follow_eq] at h ⊢
  refine walk_keepsDirs (fun d n m hw hm => hk d n (leadsToDir_of_walk hj hw hm))
    (fun _ hd => hk.get_dir hd) ?_ h hl
  cases j with
  | zero => exact fun _ _ _ hv => by cases hv
  | succ i => exact fun d q m hv hm => follow_keepsDirs hk (Nat.le_of_succ_le hj) hv hm

end FileTree

end WebDavs.Posix
