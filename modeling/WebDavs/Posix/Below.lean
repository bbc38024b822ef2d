/-
Work below a directory that is there.

A path `b` leads to the directory `B`. Names joined to `b` then lead straight
down from `B`, as long as what is on the way is a directory, and lead nowhere as
soon as something on the way is missing: no link comes in between, so nothing
has to be followed. The lemmas here say what the calls do in that situation, and
that they succeed, where the lemmas on their effects say what they have done if
they did.
-/
import WebDavs.Posix.Effects

set_option autoImplicit false

namespace WebDavs.Posix

variable {α : Type}

namespace FileTree

/-- Nothing on the way from `B` down `r` is anything but a directory. -/
def Passable (t : FileTree α) (B : Loc) (r : List String) : Prop :=
  ∀ s, s ≠ [] → s <+: r → t.get (B ++ s) = some .dir ∨ t.get (B ++ s) = none

theorem Passable.above {t : FileTree α} {B : Loc} {r s : List String} (h : t.Passable B r)
    (hs : s <+: r) : t.Passable B s :=
  fun x hx hxs => h x hx (hxs.trans hs)

/-- Names that run into one that is missing are not found. -/
theorem stop_names {t : FileTree α} {link : Loc → Path → Option Loc} {blame : Loc → Path → Errno}
    {B : Loc} {r : List String} (hB : t.get B = some .dir) (hp : t.Passable B r)
    (hr : t.get (B ++ r) = none) (cs : List Component) :
    t.stop link blame B (Path.names r ++ cs) = .enoent := by
  induction r generalizing B with
  | nil =>
    rw [List.append_nil, hB] at hr
    cases hr
  | cons n r ih =>
    rw [Path.names_cons, List.cons_append, stop]
    rcases hp [n] (by simp) (by simp) with hd | hn
    · have hp' : t.Passable (B ++ [n]) r := by
        intro s hs hsr
        have := hp (n :: s) (by simp) (by simpa using hsr)
        simpa using this
      simp only [hd]
      exact ih hd hp' (by simpa using hr)
    · simp only [hn, hB, if_true]

/-- `t'` is `t` with directories on all the way from `B` down `r`. -/
structure Laid (t : FileTree α) (B : Loc) (r : List String) (t' : FileTree α) : Prop where
  made : ∀ s, s ≠ [] → s <+: r → t'.get (B ++ s) = some .dir
  rest : ∀ x, (∀ s, s ≠ [] → s <+: r → x ≠ B ++ s) → t'.get x = t.get x

theorem Laid.refl_of_dir {t : FileTree α} {B : Loc} {r : List String}
    (h : t.get (B ++ r) = some .dir) : Laid t B r t where
  made s hs hsr := by
    obtain ⟨q, rfl⟩ := hsr
    by_cases hq : q = []
    · subst hq
      rwa [List.append_nil] at h
    · rw [← List.append_assoc] at h
      exact t.get_above hq h
  rest _ _ := rfl

end FileTree

namespace Kernel

open FileTree

variable {k : Kernel} {t : FileTree α} {b : Path} {B : Loc} {r : List String} {n : String}

/-! ## Resolving -/

theorem stat_below (hb : k.stat t b = some B) (hr : t.get (B ++ r) = some .dir) :
    k.stat t (b.down r) = some (B ++ r) :=
  stat_down_of_get hb hr (by simp)

/-- The slot of a name in a directory below. -/
theorem slot_below (hb : k.stat t b = some B) (hr : t.get (B ++ r) = some .dir) :
    k.slot t (b.down (r ++ [n])) = some (B ++ r, n) := by
  rw [← Path.down_child]
  exact slot_child_eq_some.mpr ⟨stat_below hb hr, hr, rfl⟩

/-- Nothing is found where something on the way is missing. -/
theorem stat_below_none (hb : k.stat t b = some B) (hp : t.Passable B r)
    (hr : t.get (B ++ r) = none) : k.stat t (b.down r) = none := by
  induction r using List.reverseRecOn with
  | nil =>
    obtain ⟨e, he, -⟩ := stat_spec hb
    rw [List.append_nil, he] at hr
    cases hr
  | append_singleton r n ih =>
    rw [← Path.down_child]
    have hpr : t.Passable B r := hp.above (List.prefix_append r [n])
    by_cases hd : t.get (B ++ r) = some .dir
    · refine stat_child_of_none (stat_below hb hd) ?_
      rwa [List.append_assoc]
    · -- the directory is missing as well
      have hnd : k.is_dir t (b.down r) = false := by
        rw [Bool.eq_false_iff]
        intro hdir
        obtain ⟨l, hl, hld⟩ := is_dir_iff.mp hdir
        by_cases hr0 : r = []
        · subst hr0
          rw [Path.down_nil, hb, Option.some.injEq] at hl
          rw [← hl] at hld
          exact hd (by rwa [List.append_nil])
        · have hnone : t.get (B ++ r) = none :=
            (hpr r hr0 (List.prefix_refl r)).resolve_left hd
          rw [ih hpr hnone] at hl
          cases hl
      exact stat_child_of_not_dir hnd n

/-! ## Making directories -/

/-- `mkdir` of a name that is free. -/
theorem mkdir_below (hb : k.stat t b = some B) (hr : t.get (B ++ r) = some .dir)
    (hn : t.get (B ++ (r ++ [n])) = none) :
    ∃ t', k.mkdir t (b.down (r ++ [n])) = .ok t' ∧
      ∀ x, t'.get x = if x = B ++ (r ++ [n]) then some .dir else t.get x := by
  rw [← List.append_assoc] at hn
  have hmk : ∃ t', k.mkdir t (b.down (r ++ [n])) = .ok t' := by
    simp only [mkdir, slot_below hb hr]
    rw [dif_pos ⟨hr, hn⟩]
    exact ⟨_, rfl⟩
  obtain ⟨t', ht'⟩ := hmk
  refine ⟨t', ht', ?_⟩
  obtain ⟨d, m, hs, -, -, hg⟩ := mkdir_spec ht'
  rw [slot_below hb hr] at hs
  cases hs
  intro x
  rw [hg, List.append_assoc]

/-- `mkdir` where the directory above is missing. -/
theorem mkdir_below_none (hb : k.stat t b = some B) (hB : t.get B = some .dir)
    (hp : t.Passable B (r ++ [n])) (hr : t.get (B ++ r) = none) :
    k.mkdir t (b.down (r ++ [n])) = .error .enoent := by
  have hpr : t.Passable B r := hp.above (List.prefix_append r [n])
  have hs : k.stat t (b.down r) = none := stat_below_none hb hpr hr
  have hslot : k.slot t (b.down (r ++ [n])) = none := by
    rw [← Path.down_child, slot_child, hs]
    rfl
  have hstat : k.stat t (b.down (r ++ [n])) = none := by
    refine stat_below_none hb hp ?_
    rw [← List.append_assoc]
    exact t.get_below (List.cons_ne_nil n []) (by simp [hr])
  have hwhy : k.why t (b.down (r ++ [n])) = .enoent := by
    have happ := why_append hb (Path.names r ++ Path.names [n])
    rw [stop_names hB hpr hr] at happ
    rw [← happ, Path.down, Path.names_append]
  simp only [mkdir, hslot, unnamed_of_none hstat, hwhy]

/-- **`create_dir_all` below a directory** makes what is missing on the way, and
nothing else. -/
theorem create_dir_all_below (hb : k.stat t b = some B) (hB : t.get B = some .dir)
    (hp : t.Passable B r) :
    ∃ t', k.create_dir_all t (b.down r) = (t', none) ∧ Laid t B r t' := by
  induction r using List.reverseRecOn with
  | nil =>
    refine ⟨t, ?_, Laid.refl_of_dir (by rwa [List.append_nil])⟩
    rw [Path.down_nil]
    exact create_dir_all_of_is_dir (is_dir_iff.mpr ⟨B, hb, hB⟩)
  | append_singleton r n ih =>
    have hpr : t.Passable B r := hp.above (List.prefix_append r [n])
    rcases hp (r ++ [n]) (by simp) (List.prefix_refl _) with hd | hn
    · -- all there
      refine ⟨t, ?_, Laid.refl_of_dir hd⟩
      exact create_dir_all_of_is_dir (is_dir_iff.mpr ⟨_, stat_below hb hd, hd⟩)
    · by_cases hr : t.get (B ++ r) = some .dir
      · -- only the last name is missing
        obtain ⟨t', ht', hg⟩ := mkdir_below hb hr hn
        refine ⟨t', ?_, ?_, ?_⟩
        · rw [← Path.down_child, create_dir_all_child, Path.down_child, ht']
        · intro s hs hsr
          rw [hg]
          split
          · rfl
          · rename_i hne
            rcases List.prefix_concat_iff.mp hsr with rfl | hsr
            · exact absurd rfl hne
            · exact (Laid.refl_of_dir hr).made s hs hsr
        · intro x hx
          rw [hg, if_neg (hx (r ++ [n]) (by simp) (List.prefix_refl _))]
      -- more than the last name is missing: the induction makes the others
      · have hr0 : r ≠ [] := by
          rintro rfl
          exact hr (by rwa [List.append_nil])
        have hnone : t.get (B ++ r) = none := (hpr r hr0 (List.prefix_refl r)).resolve_left hr
        obtain ⟨t₁, h₁, hl₁⟩ := ih hpr
        have hgrows : Grows t t₁ := by
          have hg := create_dir_all_grows k t (b.down r)
          rwa [h₁] at hg
        have hn₁ : t₁.get (B ++ (r ++ [n])) = none := by
          rw [hl₁.rest, hn]
          intro s _ hsr he
          have hlen := hsr.length_le
          rw [← List.append_cancel_left he, List.length_append, List.length_singleton] at hlen
          omega
        obtain ⟨t', ht', hg⟩ := mkdir_below (stat_extends hgrows.extends hb)
          (hl₁.made r hr0 (List.prefix_refl r)) hn₁
        refine ⟨t', ?_, ?_, ?_⟩
        · rw [← Path.down_child, create_dir_all_child, Path.down_child, mkdir_below_none hb hB hp hnone,
            h₁]
          simp only [ht']
        · intro s hs hsr
          rw [hg]
          split
          · rfl
          · rename_i hne
            rcases List.prefix_concat_iff.mp hsr with rfl | hsr
            · exact absurd rfl hne
            · exact hl₁.made s hs hsr
        · intro x hx
          rw [hg, if_neg (hx (r ++ [n]) (by simp) (List.prefix_refl _))]
          exact hl₁.rest x fun s hs hsr => hx s hs (hsr.trans (List.prefix_append r [n]))

/-! ## Making and renaming a file -/

/-- `open` with `create_new` of a name that is free. -/
theorem create_new_below {a : α} (hb : k.stat t b = some B) (hr : t.get (B ++ r) = some .dir)
    (hn : t.get (B ++ (r ++ [n])) = none) : ∃ t', k.create_new t (b.down (r ++ [n])) a = .ok t' := by
  rw [← List.append_assoc] at hn
  simp only [create_new, slot_below hb hr]
  rw [dif_pos ⟨hr, hn⟩]
  exact ⟨_, rfl⟩

/-- Renaming a file to a free name beside it. -/
theorem rename_below {m : String} {a : α} (hb : k.stat t b = some B)
    (hr : t.get (B ++ r) = some .dir) (hn : t.get (B ++ (r ++ [n])) = some (.file a))
    (hm : t.get (B ++ (r ++ [m])) = none) :
    ∃ t', k.rename t (b.down (r ++ [n])) (b.down (r ++ [m])) = .ok t' ∧
      ∀ x, t'.get x = if x = B ++ (r ++ [m]) then some (.file a)
        else if x = B ++ (r ++ [n]) then none else t.get x := by
  rw [← List.append_assoc] at hn hm
  have hne : B ++ r ++ [n] ≠ B ++ r ++ [m] := by
    intro he
    rw [he, hm] at hn
    cases hn
  have hup : ¬ B ++ r ++ [n] <+: B ++ r := by
    intro hpre
    have hlen := hpre.length_le
    rw [List.length_append, List.length_singleton] at hlen
    omega
  have hok : ∃ t', k.rename t (b.down (r ++ [n])) (b.down (r ++ [m])) = .ok t' := by
    have hcheck : renameCheck t (B ++ r ++ [n]) (B ++ r ++ [m]) = none := by
      rw [renameCheck_of_apart (by rw [hn]; simp), kindCheck, hn, hm]
      · rwa [List.dropLast_concat]
      · rw [List.dropLast_concat]
        intro hpre
        have hlen := hpre.length_le
        rw [List.length_append, List.length_singleton] at hlen
        omega
    simp only [rename, slot_below hb hr]
    rw [if_neg (by simp), if_neg fun h => hne h.2, hcheck, dif_pos ⟨hr, hup⟩]
    exact ⟨_, rfl⟩
  obtain ⟨t', ht'⟩ := hok
  refine ⟨t', ht', fun x => ?_⟩
  have hg := (rename_leaf_spec ht' (slot_below hb hr) (slot_below hb hr) hn (by simp) hne).2 x
  rw [hg, List.append_assoc, List.append_assoc]

end Kernel

end WebDavs.Posix
