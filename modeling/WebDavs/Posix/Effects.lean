/-
What the calls of `Calls` do, one lemma a call.

Callers never unfold a call: they take from here where its paths led and what
`get` is afterwards. Two relations between trees summarise most of it. A tree
`Extends` another when it has kept every entry, and `Grows` from it when all it
gained are directories; `create_dir_all` grows a tree whatever happens to it on
the way. Growing changes no link, so it changes no `locate`.
-/
import WebDavs.Posix.Calls

set_option autoImplicit false

namespace WebDavs.Posix

variable {α : Type}

namespace FileTree

/-! ## Trees that only gain entries -/

/-- Every entry of `t` is in `t'`, unchanged. -/
def Extends (t t' : FileTree α) : Prop := ∀ l e, t.get l = some e → t'.get l = some e

/-- `t'` is `t` with some directories more. -/
def Grows (t t' : FileTree α) : Prop :=
  ∀ l, t'.get l = t.get l ∨ (t.get l = none ∧ t'.get l = some .dir)

theorem Grows.refl (t : FileTree α) : Grows t t := fun _ => .inl rfl

theorem Grows.trans {t₁ t₂ t₃ : FileTree α} (h : Grows t₁ t₂) (h' : Grows t₂ t₃) : Grows t₁ t₃ := by
  intro l
  rcases h l with h1 | ⟨h1, h2⟩
  · rcases h' l with h3 | ⟨h3, h4⟩
    · exact .inl (h3.trans h1)
    · exact .inr ⟨h1 ▸ h3, h4⟩
  · rcases h' l with h3 | ⟨h3, -⟩
    · exact .inr ⟨h1, h3.trans h2⟩
    · rw [h2] at h3
      cases h3

theorem Grows.extends {t t' : FileTree α} (h : Grows t t') : Extends t t' := by
  intro l e he
  rcases h l with h1 | ⟨h1, -⟩
  · rw [h1, he]
  · rw [h1] at he
    cases he

theorem Grows.linkAt {t t' : FileTree α} (h : Grows t t') (l : Loc) : t'.linkAt l = t.linkAt l := by
  rcases h l with h1 | ⟨h1, h2⟩
  · exact linkAt_of_get_eq h1
  · rw [linkAt_of_none h1, linkAt_of_dir h2]

theorem Grows.file_iff {t t' : FileTree α} (h : Grows t t') {l : Loc} {a : α} :
    t'.get l = some (.file a) ↔ t.get l = some (.file a) := by
  constructor
  · intro hl
    rcases h l with h1 | ⟨-, h2⟩
    · rw [← h1, hl]
    · rw [h2] at hl
      cases hl
  · exact fun hl => h.extends _ _ hl

/-- What is not a directory was there before. -/
theorem Grows.get_of_not_dir {t t' : FileTree α} (h : Grows t t') {l : Loc} {e : Entry α}
    (he : t'.get l = some e) (hd : e ≠ .dir) : t.get l = some e := by
  rcases h l with h1 | ⟨-, h2⟩
  · rw [← h1, he]
  · rw [h2] at he
    exact absurd (Option.some.inj he).symm hd

theorem Extends.walk {t t' : FileTree α} (hx : Extends t t')
    {link link' : Loc → Path → Option Loc}
    (hlink : ∀ d p l, link d p = some l → link' d p = some l) {pos l : Loc}
    {cs : List Component} (h : t.walk link pos cs = some l) : t'.walk link' pos cs = some l := by
  induction cs generalizing pos with
  | nil => exact h
  | cons c cs ih =>
      cases c with
      | curDir =>
          simp only [FileTree.walk] at h ⊢
          split at h
          · rename_i hd
            simpa only [hx _ _ hd, if_true] using ih h
          · cases h
      | parentDir =>
          simp only [FileTree.walk] at h ⊢
          split at h
          · rename_i hd
            simpa only [hx _ _ hd, if_true] using ih h
          · cases h
      | normal n =>
          rw [walk_normal] at h ⊢
          split at h
          · cases h
          · rename_i hg
            obtain ⟨m, hm, hw⟩ := Option.bind_eq_some_iff.mp h
            rw [hx _ _ hg]
            simpa only [hlink _ _ _ hm, Option.bind_some] using ih hw
          · rename_i e hsym hg
            rw [hx _ _ hg]
            cases e with
            | symlink tgt => exact absurd rfl (hsym tgt)
            | dir => exact ih h
            | file a => exact ih h

theorem Extends.follow {t t' : FileTree α} (hx : Extends t t') {k : Nat} {pos l : Loc} {p : Path}
    (h : t.follow k pos p = some l) : t'.follow k pos p = some l := by
  induction k generalizing pos p l with
  | zero =>
      rw [follow_eq] at h ⊢
      exact hx.walk (fun _ _ _ hl => by cases hl) h
  | succ k ih =>
      rw [follow_eq] at h ⊢
      exact hx.walk (fun _ _ _ hl => ih hl) h

/-- Trees with the same links name the same places. -/
theorem locate_of_linkAt {t t' : FileTree α} (h : ∀ l, t'.linkAt l = t.linkAt l) (k : Nat) (pos : Loc)
    (p : Path) : t'.locate k pos p = t.locate k pos p :=
  (locate_congr fun v _ => h v).1

/-- From what is no directory a walk goes nowhere. -/
theorem walk_from_leaf {t : FileTree α} {link : Loc → Path → Option Loc} {x l : Loc}
    {cs : List Component} (hx : t.get x ≠ some .dir) (h : t.walk link x cs = some l) : l = x := by
  cases cs with
  | nil =>
      cases h
      rfl
  | cons c cs =>
      cases c with
      | curDir => simp [FileTree.walk, hx] at h
      | parentDir => simp [FileTree.walk, hx] at h
      | normal n => simp [walk_normal, t.get_below (List.cons_ne_nil n []) hx] at h

/-- Where a file is all that a tree has gained or replaced, a walk leads to that
file or goes as before. -/
theorem walk_of_leaf {t t' : FileTree α} {x : Loc} {a : α} (hx : t'.get x = some (.file a))
    (hrest : ∀ l, l ≠ x → t'.get l = t.get l) {link link' : Loc → Path → Option Loc}
    (hlink : ∀ d p l, link' d p = some l → l = x ∨ link d p = some l) {pos l : Loc}
    {cs : List Component} (h : t'.walk link' pos cs = some l) :
    l = x ∨ t.walk link pos cs = some l := by
  have hleaf : t'.get x ≠ some .dir := by simp [hx]
  induction cs generalizing pos with
  | nil => exact .inr h
  | cons c cs ih =>
      by_cases hpos : pos = x
      · exact .inl (walk_from_leaf hleaf (hpos ▸ h))
      · cases c with
        | curDir =>
            simp only [FileTree.walk, hrest _ hpos] at h ⊢
            split at h
            · rename_i hd
              simpa only [hd, if_true] using ih h
            · cases h
        | parentDir =>
            simp only [FileTree.walk, hrest _ hpos] at h ⊢
            split at h
            · rename_i hd
              simpa only [hd, if_true] using ih h
            · cases h
        | normal n =>
            rw [walk_normal] at h ⊢
            by_cases hn : pos ++ [n] = x
            · rw [hn, hx] at h
              exact .inl (walk_from_leaf hleaf h)
            · rw [hrest _ hn] at h
              split at h
              · cases h
              · obtain ⟨m, hm, hw⟩ := Option.bind_eq_some_iff.mp h
                rcases hlink _ _ _ hm with rfl | hm'
                · exact .inl (walk_from_leaf hleaf hw)
                · simpa only [hm', Option.bind_some] using ih hw
              · exact ih h

theorem follow_of_leaf {t t' : FileTree α} {x : Loc} {a : α} (hx : t'.get x = some (.file a))
    (hrest : ∀ l, l ≠ x → t'.get l = t.get l) {k : Nat} {pos l : Loc} {p : Path}
    (h : t'.follow k pos p = some l) : l = x ∨ t.follow k pos p = some l := by
  induction k generalizing pos p l with
  | zero =>
      rw [follow_eq] at h ⊢
      exact walk_of_leaf hx hrest (fun _ _ _ hl => by cases hl) h
  | succ k ih =>
      rw [follow_eq] at h ⊢
      exact walk_of_leaf hx hrest (fun _ _ _ hl => ih hl) h

theorem follow_of_get_eq {t t' : FileTree α} (h : ∀ l, t'.get l = t.get l) (k : Nat) (pos : Loc)
    (p : Path) : t'.follow k pos p = t.follow k pos p := by
  have h1 : Extends t t' := fun l e he => by rw [h, he]
  have h2 : Extends t' t := fun l e he => by rw [← h, he]
  exact Option.ext fun l => ⟨fun hl => h2.follow hl, fun hl => h1.follow hl⟩

end FileTree

namespace Kernel

open FileTree

theorem stat_extends {k : Kernel} {t t' : FileTree α} (hx : Extends t t') {p : Path} {l : Loc}
    (h : k.stat t p = some l) : k.stat t' p = some l := by
  obtain ⟨hs, hf⟩ := stat_eq_some.mp h
  exact stat_eq_some.mpr ⟨hx _ _ hs, hx.follow hf⟩

theorem is_dir_extends {k : Kernel} {t t' : FileTree α} (hx : Extends t t') {p : Path}
    (h : k.is_dir t p = true) : k.is_dir t' p = true := by
  obtain ⟨l, hs, hd⟩ := is_dir_iff.mp h
  exact is_dir_iff.mpr ⟨l, stat_extends hx hs, hx _ _ hd⟩

theorem slot_extends {k : Kernel} {t t' : FileTree α} (hx : Extends t t') {p : Path}
    {s : Loc × String} (h : k.slot t p = some s) : k.slot t' p = some s := by
  obtain ⟨d, n⟩ := s
  obtain ⟨q, rfl, hs, hd⟩ := slot_spec h
  exact slot_child_eq_some.mpr ⟨stat_extends hx hs, hx _ _ hd, rfl⟩

/-- Resolution looks at `get` alone. -/
theorem stat_of_get_eq {k : Kernel} {t t' : FileTree α} (h : ∀ l, t'.get l = t.get l) (p : Path) :
    k.stat t' p = k.stat t p := by
  unfold stat
  rw [h, follow_of_get_eq h]

theorem stat_of_leaf {k : Kernel} {t t' : FileTree α} {x : Loc} {a : α}
    (hx : t'.get x = some (.file a)) (hrest : ∀ l, l ≠ x → t'.get l = t.get l) {p : Path}
    {l : Loc} (h : k.stat t' p = some l) : l = x ∨ k.stat t p = some l := by
  obtain ⟨hs, hf⟩ := stat_eq_some.mp h
  rcases follow_of_leaf hx hrest hf with hl | hl
  · exact .inl hl
  · refine .inr (stat_eq_some.mpr ⟨?_, hl⟩)
    rw [← hrest _ (fun he => by rw [he, hx] at hs; cases hs)]
    exact hs

theorem stat_keepsDirs {k : Kernel} {t t' : FileTree α} (hk : KeepsDirs k.links t t') {p : Path}
    {l : Loc} (h : k.stat t p = some l) (hl : t.get l = some .dir) : k.stat t' p = some l := by
  obtain ⟨hs, hf⟩ := stat_eq_some.mp h
  exact stat_eq_some.mpr ⟨hk.get_dir hs, follow_keepsDirs hk (Nat.le_refl _) hf hl⟩

/-- A name in a resolved directory, when an entry that is no link sits there. -/
theorem stat_child_of_get {k : Kernel} {t : FileTree α} {p : Path} {d : Loc} {n : String}
    {e : Entry α} (hp : k.stat t p = some d) (he : t.get (d ++ [n]) = some e)
    (hs : ∀ tgt, e ≠ .symlink tgt) : k.stat t (p.child n) = some (d ++ [n]) := by
  rw [stat_child, hp]
  exact walk_single he hs

/-- A name in a resolved directory, when nothing is there. -/
theorem stat_child_of_none {k : Kernel} {t : FileTree α} {p : Path} {d : Loc} {n : String}
    (hp : k.stat t p = some d) (he : t.get (d ++ [n]) = none) : k.stat t (p.child n) = none := by
  rw [stat_child, hp, Option.bind_some, walk_normal, he]

/-- A path that has no entry leads nowhere. -/
theorem stat_of_lstat_none {k : Kernel} {t : FileTree α} {p : Path} (h : k.lstat t p = none) :
    k.stat t p = none := by
  by_contra hne
  obtain ⟨l, hl⟩ := Option.ne_none_iff_exists'.mp hne
  obtain ⟨e, he, -⟩ := stat_spec hl
  rw [lstat_eq] at h
  cases hs : k.slot t p with
  | none =>
      rw [entry_at_of_stat hl hs, Option.bind_some, he] at h
      cases h
  | some s =>
      obtain ⟨d, n⟩ := s
      rw [entry_at_of_slot hs, Option.bind_some] at h
      obtain ⟨q, rfl, hq, -⟩ := slot_spec hs
      rw [stat_child_of_none hq h] at hl
      cases hl

/-- Where a path leads nowhere there is nothing but a link. -/
theorem link_of_not_exists {k : Kernel} {t : FileTree α} {p : Path} {d : Loc} {n : String}
    {e : Entry α} (hs : k.slot t p = some (d, n)) (hx : k.exists_ t p = false)
    (he : t.get (d ++ [n]) = some e) : ∃ tgt, e = .symlink tgt := by
  by_contra hsym
  obtain ⟨q, rfl, hq, -⟩ := slot_spec hs
  rw [exists_, stat_child_of_get hq he fun tgt h => hsym ⟨tgt, h⟩] at hx
  cases hx

/-- Nothing is reached below what is no directory. -/
theorem stat_child_of_not_dir {k : Kernel} {t : FileTree α} {p : Path}
    (hp : k.is_dir t p = false) (n : String) : k.stat t (p.child n) = none := by
  rw [stat_child]
  cases hs : k.stat t p with
  | none => rfl
  | some l =>
      have hl : t.get l ≠ some .dir := fun hd => by
        rw [is_dir_iff.mpr ⟨l, hs, hd⟩] at hp
        cases hp
      rw [Option.bind_some, walk_normal, t.get_below (List.cons_ne_nil n []) hl]

/-! ## Making directories -/

theorem mkdir_spec {k : Kernel} {t t' : FileTree α} {p : Path} (h : k.mkdir t p = .ok t') :
    ∃ d n, k.slot t p = some (d, n) ∧ t.get d = some .dir ∧ t.get (d ++ [n]) = none ∧
      ∀ x, t'.get x = if x = d ++ [n] then some .dir else t.get x := by
  unfold mkdir at h
  split at h
  · rename_i d n hs
    split at h
    · rename_i hc
      cases h
      exact ⟨d, n, hs, hc.1, hc.2, fun _ => rfl⟩
    · cases h
  · cases h

theorem mkdir_grows {k : Kernel} {t t' : FileTree α} {p : Path} (h : k.mkdir t p = .ok t') :
    Grows t t' := by
  obtain ⟨d, n, -, -, hn, hg⟩ := mkdir_spec h
  intro l
  rw [hg l]
  split
  · rename_i hl
    exact .inr ⟨hl ▸ hn, rfl⟩
  · exact .inl rfl

theorem mkdir_is_dir {k : Kernel} {t t' : FileTree α} {p : Path} (h : k.mkdir t p = .ok t') :
    k.is_dir t' p = true := by
  have hx := (mkdir_grows h).extends
  obtain ⟨d, n, hs, -, -, hg⟩ := mkdir_spec h
  obtain ⟨q, rfl, hq, -⟩ := slot_spec hs
  have hget : t'.get (d ++ [n]) = some .dir := by rw [hg, if_pos rfl]
  refine is_dir_iff.mpr ⟨d ++ [n], ?_, hget⟩
  rw [stat_child, stat_extends hx hq]
  exact walk_single hget (by simp)

theorem create_dirs_grows (k : Kernel) (t : FileTree α) (p : Path) (i : Nat) :
    Grows t (k.create_dirs t p i).1 := by
  induction i with
  | zero => exact Grows.refl t
  | succ i ih =>
      unfold create_dirs
      dsimp only
      split
      · rename_i h
        exact mkdir_grows h
      · split
        · rename_i h
          rw [h] at ih
          exact ih
        · rename_i h
          rw [h] at ih
          split
          · rename_i h'
            exact ih.trans (mkdir_grows h')
          · exact ih
      · exact Grows.refl t

theorem create_dir_all_grows (k : Kernel) (t : FileTree α) (p : Path) :
    Grows t (k.create_dir_all t p).1 := create_dirs_grows k t p _

/-- When it reports success, the path is a directory. -/
theorem create_dirs_is_dir {k : Kernel} {t : FileTree α} {p : Path} {i : Nat}
    (h : (k.create_dirs t p (i + 1)).2 = none) :
    k.is_dir (k.create_dirs t p (i + 1)).1 ⟨p.root, p.comps.take (i + 1)⟩ = true := by
  unfold create_dirs at h ⊢
  dsimp only at h ⊢
  split at h
  · rename_i hm
    exact mkdir_is_dir hm
  · split at h
    · cases h
    · split at h
      · rename_i hm
        exact mkdir_is_dir hm
      · by_contra hne
        simp [hne] at h
  · by_contra hne
    simp [hne] at h

theorem create_dir_all_is_dir {k : Kernel} {t : FileTree α} {p : Path} (hp : p.comps ≠ [])
    (h : (k.create_dir_all t p).2 = none) : k.is_dir (k.create_dir_all t p).1 p = true := by
  unfold create_dir_all at h ⊢
  obtain ⟨i, hi⟩ := Nat.exists_eq_succ_of_ne_zero (by simpa using hp : p.comps.length ≠ 0)
  rw [Nat.succ_eq_add_one] at hi
  rw [hi] at h ⊢
  have hd := create_dirs_is_dir h
  have hall : p.comps.take (i + 1) = p.comps := by rw [← hi, List.take_length]
  rwa [hall] at hd

/-- A path that is a directory has a slot that is taken, or no slot. -/
theorem mkdir_of_is_dir {k : Kernel} {t : FileTree α} {p : Path} (h : k.is_dir t p = true) :
    k.mkdir t p = .error .eexist := by
  obtain ⟨l, hs, -⟩ := is_dir_iff.mp h
  unfold mkdir
  split
  · rename_i d n hslot
    obtain ⟨q, rfl, hq, hd⟩ := slot_spec hslot
    rw [stat_child, hq, Option.bind_some, walk_normal] at hs
    have hne : t.get (d ++ [n]) ≠ none := fun hn => by simp [hn] at hs
    rw [dif_neg fun hc => hne hc.2]
  · rw [unnamed_of_stat hs]

theorem create_dir_all_of_is_dir {k : Kernel} {t : FileTree α} {p : Path}
    (h : k.is_dir t p = true) : k.create_dir_all t p = (t, none) := by
  unfold create_dir_all
  cases hi : p.comps.length with
  | zero => rfl
  | succ i =>
      have hall : p.comps.take (i + 1) = p.comps := by rw [← hi, List.take_length]
      unfold create_dirs
      simp only [hall, mkdir_of_is_dir h, h, if_true]

/-- **Directories made below an existing one** are new and empty: if the path
was no directory before, the place it now leads to was free and has nothing in
it. -/
theorem create_dir_all_fresh {k : Kernel} {t : FileTree α} {b : Path} (hb : k.is_dir t b = true)
    {r : List String} (hnd : k.is_dir t (b.down r) = false)
    (hok : (k.create_dir_all t (b.down r)).2 = none) :
    ∃ l, k.stat (k.create_dir_all t (b.down r)).1 (b.down r) = some l ∧ t.get l = none ∧
      (k.create_dir_all t (b.down r)).1.get l = some .dir ∧
      ∀ s, s ≠ [] → (k.create_dir_all t (b.down r)).1.get (l ++ s) = none := by
  -- what one successful `mkdir` in a directory leaves
  have hmk : ∀ (t₁ t₂ : FileTree α) (p : Path), k.mkdir t₁ p = .ok t₂ → ∃ l, k.stat t₂ p = some l ∧
      t₁.get l = none ∧ t₂.get l = some .dir ∧ ∀ s, s ≠ [] → t₂.get (l ++ s) = none := by
    intro t₁ t₂ p hm
    have hx := (mkdir_grows hm).extends
    obtain ⟨d, n, hs, -, hn, hg⟩ := mkdir_spec hm
    obtain ⟨q, rfl, hq, -⟩ := slot_spec hs
    have hget : t₂.get (d ++ [n]) = some .dir := by rw [hg, if_pos rfl]
    refine ⟨d ++ [n], ?_, hn, hget, fun s hs0 => ?_⟩
    · rw [stat_child, stat_extends hx hq]
      exact walk_single hget (by simp)
    · rw [hg, if_neg (by simpa using hs0)]
      exact t₁.get_below hs0 (by simp [hn])
  induction r using List.reverseRecOn with
  | nil => simp [hb] at hnd
  | append_singleton r n ih =>
      rw [← Path.down_child] at hnd hok ⊢
      rw [create_dir_all_child] at hok ⊢
      cases hm : k.mkdir t ((b.down r).child n) with
      | ok t' =>
          obtain ⟨l, hl⟩ := hmk t t' _ hm
          exact ⟨l, hl⟩
      | error e =>
          rw [hm] at hok
          by_cases he : e = .enoent
          · subst he
            -- the parent was missing too, so it is new and empty by induction
            have hnd' : k.is_dir t (b.down r) = false := by
              rw [Bool.eq_false_iff]
              intro hd
              obtain ⟨l, hs, hdir⟩ := is_dir_iff.mp hd
              have hslot : k.slot t ((b.down r).child n) = some (l, n) :=
                slot_child_eq_some.mpr ⟨hs, hdir, rfl⟩
              simp only [mkdir, hslot] at hm
              split at hm <;> cases hm
            cases hcd : k.create_dir_all t (b.down r) with
            | mk t₁ o =>
                simp only [hcd] at hok ⊢
                cases o with
                | some e' => cases hok
                | none =>
                    obtain ⟨l, hs, hfree, hdir, hempty⟩ := ih hnd' (by rw [hcd])
                    rw [hcd] at hs hdir hempty
                    have hslot : k.slot t₁ ((b.down r).child n) = some (l, n) :=
                      slot_child_eq_some.mpr ⟨hs, hdir, rfl⟩
                    have hmkdir : ∃ t₂, k.mkdir t₁ ((b.down r).child n) = .ok t₂ := by
                      have hfree : t₁.get (l ++ [n]) = none := hempty [n] (by simp)
                      simp only [mkdir, hslot]
                      rw [dif_pos ⟨hdir, hfree⟩]
                      exact ⟨_, rfl⟩
                    obtain ⟨t₂, hm₂⟩ := hmkdir
                    simp only [hm₂]
                    obtain ⟨l₂, hs₂, hfree₂, hdir₂, hempty₂⟩ := hmk t₁ t₂ _ hm₂
                    refine ⟨l₂, hs₂, ?_, hdir₂, hempty₂⟩
                    rcases (create_dir_all_grows k t (b.down r)) l₂ with h | ⟨h, -⟩
                    · rw [← h, hcd]
                      exact hfree₂
                    · exact h
          · exfalso
            cases e <;> simp_all

/-! ## Removing -/

theorem remove_file_spec {k : Kernel} {t t' : FileTree α} {p : Path}
    (h : k.remove_file t p = .ok t') :
    ∃ d n e, k.slot t p = some (d, n) ∧ t.get (d ++ [n]) = some e ∧ e ≠ .dir ∧
      ∀ x, t'.get x = if x = d ++ [n] then none else t.get x := by
  unfold remove_file at h
  split at h
  · cases h
  · rename_i d n hs
    split at h
    · cases h
    · cases h
    · rename_i e he hg
      cases h
      refine ⟨d, n, e, hs, hg, he, fun x => ?_⟩
      rw [get_erase]
      by_cases hx : x = d ++ [n]
      · simp [hx]
      · rw [if_neg hx]
        split
        · rename_i hp
          cases hgx : t.get x with
          | none => rfl
          | some e' =>
              have := t.eq_of_prefix hp (by rw [hg]; exact fun h => he (Option.some.inj h)) hgx
              exact absurd this.symm hx
        · rfl

theorem remove_dir_spec {k : Kernel} {t t' : FileTree α} {p : Path} (h : k.remove_dir t p = .ok t') :
    ∃ d n, k.slot t p = some (d, n) ∧ t.get (d ++ [n]) = some .dir ∧
      (∀ m, t.get (d ++ [n] ++ [m]) = none) ∧
      ∀ x, t'.get x = if x = d ++ [n] then none else t.get x := by
  unfold remove_dir at h
  split at h
  · cases h
  · rename_i d n hs
    split at h
    · cases h
    · rename_i hg
      split at h
      · rename_i hc
        cases h
        refine ⟨d, n, hs, hg, children_eq_nil.mp hc, fun x => ?_⟩
        rw [get_erase]
        by_cases hx : x = d ++ [n]
        · simp [hx]
        · rw [if_neg hx]
          split
          · rename_i hp
            obtain ⟨r, rfl⟩ := hp
            exact (get_below_empty hc (fun hr => hx (by simp [hr]))).symm
          · rfl
      · cases h
    · cases h

/-- `remove_dir_all` forgets some of what is at or below the entry its path
names, and nothing else. -/
theorem remove_dir_all_get (k : Kernel) (t : FileTree α) (p : Path) (x : Loc) :
    (k.remove_dir_all t p).1.get x = t.get x ∨
      ((k.remove_dir_all t p).1.get x = none ∧ ∃ l, k.entry_at t p = some l ∧ l <+: x) := by
  unfold remove_dir_all
  split
  · rename_i d n hs
    split
    · exact .inl rfl
    · exact .inl rfl
    · simp only [get_erase]
      split
      · rename_i hp
        exact .inr ⟨rfl, d ++ [n], entry_at_of_slot hs, hp⟩
      · exact .inl rfl
  · rename_i hslot
    split
    · exact .inl rfl
    · rename_i l hs
      split
      · rcases t.get_eraseAll ((t.children l).map fun n => l ++ [n]) x with h | ⟨h, y, hy, -, hyx⟩
        · exact .inl h
        · obtain ⟨n, -, rfl⟩ := List.mem_map.mp hy
          exact .inr ⟨h, l, entry_at_of_stat hs hslot, (List.prefix_append _ _).trans hyx⟩
      · exact .inl rfl

/-! ## Renaming -/

/-- A rename that succeeds found something at its source, and either names one
place twice or has put what was at and below `d/n` at and below `d'/n'`. -/
theorem rename_spec {k : Kernel} {t t' : FileTree α} {p q : Path} (h : k.rename t p q = .ok t') :
    ∃ d n d' n' e, k.slot t p = some (d, n) ∧ k.slot t q = some (d', n') ∧
      t.get (d ++ [n]) = some e ∧ t.get d' = some .dir ∧ k.dev d = k.dev d' ∧
      ((d ++ [n] = d' ++ [n'] ∧ t' = t) ∨
        (d ++ [n] ≠ d' ++ [n'] ∧ ¬ d ++ [n] <+: d' ∧
          (e = .dir → t.get (d' ++ [n']) = none ∨
            (t.get (d' ++ [n']) = some .dir ∧ ∀ m, t.get (d' ++ [n'] ++ [m]) = none)) ∧
          (e ≠ .dir → t.get (d' ++ [n']) ≠ some .dir) ∧
          ∀ x, t'.get x =
            if d' ++ [n'] <+: x then t.get (d ++ [n] ++ x.drop (d' ++ [n']).length)
            else if d ++ [n] <+: x then none else t.get x)) := by
  unfold rename at h
  split at h
  · rename_i d n d' n' hs hs'
    obtain ⟨-, -, -, hd'⟩ := slot_spec hs'
    split at h
    · cases h
    · rename_i hdev
      rw [not_not] at hdev
      split at h
      -- both paths name one place: nothing moves
      · rename_i hsame
        cases h
        obtain ⟨e, he⟩ := Option.ne_none_iff_exists'.mp hsame.1
        exact ⟨d, n, d', n', e, hs, hs', he, hd', hdev, .inl ⟨hsame.2, rfl⟩⟩
      · rename_i hdiff
        split at h
        · cases h
        · rename_i hc
          split at h
          · rename_i hcond
            cases h
            -- a rename of what is not there has been refused
            obtain ⟨hthere, hkind⟩ := renameCheck_none hc
            obtain ⟨e, he⟩ := Option.ne_none_iff_exists'.mp hthere
            have hne : d ++ [n] ≠ d' ++ [n'] := fun heq => hdiff ⟨by simp [he], heq⟩
            refine ⟨d, n, d', n', e, hs, hs', he, hd', hdev,
              .inr ⟨hne, hcond.2, ?_, ?_, fun x => get_graft ..⟩⟩
            -- a directory may take the place of an empty one only
            · rintro rfl
              cases hb : t.get (d' ++ [n']) with
              | none => exact .inl rfl
              | some e' =>
                  cases e' with
                  | dir =>
                      simp only [kindCheck, he, hb] at hkind
                      split at hkind
                      · rename_i hch
                        exact .inr ⟨rfl, children_eq_nil.mp hch⟩
                      · cases hkind
                  | file a => simp [kindCheck, he, hb] at hkind
                  | symlink tgt => simp [kindCheck, he, hb] at hkind
            · intro hned hdir
              simp only [kindCheck, he, hdir] at hkind
              cases e with
              | dir => exact hned rfl
              | file a => cases hkind
              | symlink tgt => cases hkind
          · cases h
  · cases h

/-- The same for an entry that is no directory, which lands on none: one entry
appears, one goes. -/
theorem rename_leaf_spec {k : Kernel} {t t' : FileTree α} {p q : Path} {d d' : Loc} {n n' : String}
    {e : Entry α} (h : k.rename t p q = .ok t') (hs : k.slot t p = some (d, n))
    (hs' : k.slot t q = some (d', n')) (he : t.get (d ++ [n]) = some e) (hd : e ≠ .dir)
    (hne : d ++ [n] ≠ d' ++ [n']) :
    t.get (d' ++ [n']) ≠ some .dir ∧
      ∀ x, t'.get x = if x = d' ++ [n'] then some e
        else if x = d ++ [n] then none else t.get x := by
  obtain ⟨_, _, _, _, e', h₁, h₂, he', -, -, hcase⟩ := rename_spec h
  rw [hs] at h₁
  rw [hs'] at h₂
  cases h₁
  cases h₂
  rw [he] at he'
  cases he'
  -- the two places differ, so the rename has moved
  rcases hcase with ⟨heq, -⟩ | ⟨-, -, -, hnd, hget⟩
  · exact absurd heq hne
  have hnd := hnd hd
  have hleaf : t.get (d ++ [n]) ≠ some .dir := by
    rw [he]
    exact fun hc => hd (Option.some.inj hc)
  refine ⟨hnd, fun x => ?_⟩
  rw [hget]
  by_cases hx : x = d' ++ [n']
  · subst hx
    simpa only [List.prefix_rfl, if_true, List.drop_length, List.append_nil] using he
  · rw [if_neg hx]
    by_cases hp : d' ++ [n'] <+: x
    · -- nothing is below what is no directory, before or after
      rw [if_pos hp]
      obtain ⟨r, rfl⟩ := hp
      have hr : r ≠ [] := fun hr => hx (by simp [hr])
      rw [List.drop_left, t.get_below hr hleaf, t.get_below hr hnd, ite_self]
    · rw [if_neg hp]
      by_cases hxs : x = d ++ [n]
      · simp [hxs]
      · rw [if_neg hxs]
        split
        · rename_i hps
          cases hg : t.get x with
          | none => rfl
          | some e' => exact absurd (t.eq_of_prefix hps hleaf hg).symm hxs
        · rfl

/-! ## Writing -/

theorem place_spec {k : Kernel} {t : FileTree α} {p : Path} {d : Loc} {n : String}
    (h : k.place t p = some (d, n)) :
    t.get d = some .dir ∧ t.linkAt (d ++ [n]) = none ∧ k.locate t p = some (d ++ [n]) := by
  unfold place at h
  split at h
  · exact FileTree.place_spec h
  · cases h

theorem write_spec {k : Kernel} {t t' : FileTree α} {p : Path} {a : α}
    (h : k.write t p a = .ok t') :
    ∃ d n, k.place t p = some (d, n) ∧ t.get (d ++ [n]) ≠ some .dir ∧
      ∀ x, t'.get x = if x = d ++ [n] then some (.file a) else t.get x := by
  unfold write at h
  split at h
  · cases h
  · rename_i d n hp
    split at h
    · rename_i hc
      cases h
      exact ⟨d, n, hp, hc.2, fun _ => rfl⟩
    · cases h

theorem create_new_spec {k : Kernel} {t t' : FileTree α} {p : Path} {a : α}
    (h : k.create_new t p a = .ok t') :
    ∃ d n, k.slot t p = some (d, n) ∧ t.get d = some .dir ∧ t.get (d ++ [n]) = none ∧
      ∀ x, t'.get x = if x = d ++ [n] then some (.file a) else t.get x := by
  unfold create_new at h
  split at h
  · cases h
  · rename_i d n hs
    split at h
    · rename_i hc
      cases h
      exact ⟨d, n, hs, hc.1, hc.2, fun _ => rfl⟩
    · cases h

end Kernel

end WebDavs.Posix
