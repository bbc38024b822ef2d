/-
Whether `create_dir_all` has anything to make.

It makes something exactly when some name on the way to its path is free in a
directory that is there: everything above that name is in place, and everything
after it is missing. Below a directory that is there it also succeeds then, since
what comes after the first new directory is new as well.
-/
import WebDavs.Posix.Effects

set_option autoImplicit false

namespace WebDavs.Posix

variable {α : Type}

/-- The path of the first `i` components. -/
def Path.upto (p : Path) (i : Nat) : Path := ⟨p.root, p.comps.take i⟩

/-- Up to some component, a path of names below the root is in the root or below
it. -/
theorem Path.upto_down (root : Path) (r : List String) (n : Nat) :
    (root.down r).upto n = root.upto n ∨ ∃ m, (root.down r).upto n = root.down (r.take m) := by
  by_cases hn : n ≤ root.comps.length
  · refine .inl ?_
    simp [Path.upto, Path.down, List.take_append_of_le_length hn]
  · refine .inr ⟨n - root.comps.length, ?_⟩
    have hroot : root.comps.take n = root.comps := List.take_of_length_le (by omega)
    simp [Path.upto, Path.down, Path.names, List.take_append, hroot, List.map_take]

namespace Kernel

open FileTree

variable {k : Kernel} {t : FileTree α} {p : Path} {i j : Nat}

/-- Some name on the way to `p` is free in a directory that is there. -/
def Lacks (k : Kernel) (t : FileTree α) (p : Path) : Prop :=
  ∃ j, j ≤ p.comps.length ∧ ∃ d n, k.slot t (p.upto j) = some (d, n) ∧ t.get (d ++ [n]) = none

/-- A path that resolves does so at every component. -/
theorem stat_upto {l : Loc} (h : k.stat t p = some l) (i : Nat) :
    ∃ m, k.stat t (p.upto i) = some m := by
  obtain ⟨hs, hf⟩ := stat_eq_some.mp h
  rw [follow_eq, ← List.take_append_drop i p.comps, walk_append] at hf
  obtain ⟨m, hm, -⟩ := Option.bind_eq_some_iff.mp hf
  exact ⟨m, stat_eq_some.mpr ⟨hs, by rw [follow_eq]; exact hm⟩⟩

theorem upto_upto (h : i ≤ j) : (p.upto j).upto i = p.upto i := by
  simp [Path.upto, List.take_take, h]

/-- Nothing is reached through a name that is free. -/
theorem stat_of_free {d : Loc} {n : String} (hs : k.slot t (p.upto i) = some (d, n))
    (hn : t.get (d ++ [n]) = none) (hij : i ≤ j) : k.stat t (p.upto j) = none := by
  by_contra hne
  obtain ⟨l, hl⟩ := Option.ne_none_iff_exists'.mp hne
  obtain ⟨m, hm⟩ := stat_upto hl i
  rw [upto_upto hij] at hm
  obtain ⟨q, hq, hd, -⟩ := slot_spec hs
  rw [hq, stat_child_of_none hd hn] at hm
  cases hm

/-- It is that name that is missing. -/
theorem why_of_free {d : Loc} {n : String} (hs : k.slot t (p.upto i) = some (d, n))
    (hn : t.get (d ++ [n]) = none) (hij : i ≤ j) : k.why t (p.upto j) = .enoent := by
  obtain ⟨q, hq, hst, hd⟩ := slot_spec hs
  have hroot : (p.upto i).root = (q.child n).root := congrArg Path.root hq
  have hcomps : p.comps.take i = q.comps ++ [.normal n] := congrArg Path.comps hq
  have hj : (p.upto j).comps = q.comps ++ (.normal n :: (p.comps.take j).drop i) :=
    calc p.comps.take j
        = (p.comps.take j).take i ++ (p.comps.take j).drop i := (List.take_append_drop ..).symm
      _ = q.comps ++ (.normal n :: (p.comps.take j).drop i) := by
          rw [List.take_take, Nat.min_eq_left hij, hcomps, List.append_assoc, List.singleton_append]
  have hup : p.upto j = ⟨q.root, q.comps ++ (.normal n :: (p.comps.take j).drop i)⟩ := by
    rw [← hj]
    exact congrArg (Path.mk · _) hroot
  rw [hup, why_append hst, stop, hn, if_pos hd]

/-- Through a path that lacks something nothing is reached. -/
theorem stat_of_lacks {r : List String} (h : k.Lacks t p) :
    k.stat t (p.down r) = none := by
  obtain ⟨j, hj, D, n, hs, hn⟩ := h
  have hall : (p.down r).upto (p.down r).comps.length = p.down r := by
    rw [Path.upto, List.take_length]
  have hlen : (p.down r).comps.length = p.comps.length + r.length := by
    simp [Path.down, Path.names]
  have hup : (p.down r).upto j = p.upto j := by
    simp [Path.upto, Path.down, List.take_append_of_le_length hj]
  rw [← hup] at hs
  rw [← hall]
  exact stat_of_free hs hn (by omega)

/-- `mkdir` makes the last name, when that is what is free. -/
theorem mkdir_of_free {d : Loc} {n : String} (hs : k.slot t p = some (d, n))
    (hn : t.get (d ++ [n]) = none) : ∃ t', k.mkdir t p = .ok t' := by
  obtain ⟨-, -, -, hd⟩ := slot_spec hs
  unfold mkdir
  simp only [hs]
  rw [dif_pos ⟨hd, hn⟩]
  exact ⟨_, rfl⟩

/-- An error of `mkdir` comes from a path that leads nowhere, or from something that is
there. -/
theorem mkdir_error {e : Errno} (h : k.mkdir t p = .error e) :
    (e = k.why t p ∧ k.slot t p = none ∧ k.stat t p = none) ∨
      (e = .eexist ∧ ((∃ d n, k.slot t p = some (d, n) ∧ t.get (d ++ [n]) ≠ none) ∨
        ∃ l, k.stat t p = some l)) := by
  unfold mkdir at h
  split at h
  · rename_i d n hs
    split at h
    · cases h
    · rename_i hc
      cases h
      obtain ⟨-, -, -, hd⟩ := slot_spec hs
      exact .inr ⟨rfl, .inl ⟨d, n, hs, fun hn => hc ⟨hd, hn⟩⟩⟩
  · rename_i hs
    cases hst : k.stat t p with
    | some l =>
        rw [unnamed_of_stat hst] at h
        cases h
        exact .inr ⟨rfl, .inr ⟨l, rfl⟩⟩
    | none =>
        rw [unnamed_of_none hst] at h
        cases h
        exact .inl ⟨rfl, hs, rfl⟩

/-- The slot of a path lies in the directory its other components lead to. -/
theorem slot_upto_succ {d : Loc} {n : String} (hi : i < p.comps.length)
    (h : k.slot t (p.upto (i + 1)) = some (d, n)) :
    p.upto (i + 1) = (p.upto i).child n ∧ k.stat t (p.upto i) = some d ∧ t.get d = some .dir := by
  obtain ⟨q, hq, hd⟩ := slot_spec h
  have hcomps : p.comps.take (i + 1) = q.comps ++ [.normal n] := congrArg Path.comps hq
  have hqi : q.comps = p.comps.take i := by
    have hdrop := congrArg List.dropLast hcomps
    rw [List.dropLast_concat, List.dropLast_eq_take, List.take_take, List.length_take] at hdrop
    rw [← hdrop]
    congr 1
    omega
  have hroot : q.root = p.root := (congrArg Path.root hq).symm
  have hqe : q = p.upto i := by
    rw [Path.upto, ← hqi, ← hroot]
  rw [← hqe]
  exact ⟨hq, hd⟩

/-- With nothing to make, `create_dirs` leaves the tree as it is. -/
theorem create_dirs_same (hl : ¬ k.Lacks t p) (hi : i ≤ p.comps.length) :
    (k.create_dirs t p i).1 = t := by
  induction i with
  | zero => rfl
  | succ i ih =>
    have hmk : ∀ t', k.mkdir t (p.upto (i + 1)) ≠ .ok t' := by
      intro t' h
      obtain ⟨d, n, hs, -, hn, -⟩ := mkdir_spec h
      exact hl ⟨i + 1, hi, d, n, hs, hn⟩
    have ih := ih (by omega)
    unfold create_dirs
    dsimp only
    split
    · rename_i h
      exact absurd h (hmk _)
    · split
      · rename_i h
        rw [h] at ih
        exact ih
      · rename_i t₁ h
        rw [h] at ih
        obtain rfl : t₁ = t := ih
        split
        · rename_i h
          exact absurd h (hmk _)
        · rfl
    · rfl

/-- With something to make, it is made. -/
theorem create_dirs_makes {d : Loc} {n : String} (hj : j ≤ i) (hi : i ≤ p.comps.length)
    (hs : k.slot t (p.upto j) = some (d, n)) (hn : t.get (d ++ [n]) = none) :
    ∃ l, t.get l = none ∧ (k.create_dirs t p i).1.get l = some .dir := by
  induction i with
  | zero =>
    obtain rfl : j = 0 := by omega
    cases hs
  | succ i ih =>
    unfold create_dirs
    dsimp only
    split
    · rename_i t' h
      obtain ⟨d', n', -, -, hn', hg⟩ := mkdir_spec h
      exact ⟨d' ++ [n'], hn', by rw [hg, if_pos rfl]⟩
    · rename_i h
      have hji : j ≤ i := by
        by_contra hlt
        obtain rfl : j = i + 1 := by omega
        obtain ⟨t', ht'⟩ := mkdir_of_free hs hn
        rw [show k.mkdir t (p.upto (i + 1)) = _ from h] at ht'
        cases ht'
      obtain ⟨l, hl, hld⟩ := ih hji (by omega)
      refine ⟨l, hl, ?_⟩
      split
      · rename_i h₁
        rw [h₁] at hld
        exact hld
      · rename_i t₁ h₁
        rw [h₁] at hld
        split
        · rename_i h₂
          exact (mkdir_grows h₂).extends _ _ hld
        · exact hld
    · rename_i e hne h
      -- what is at the path would have to be reached through the free name
      exfalso
      rcases mkdir_error h with ⟨he, -⟩ | ⟨-, ⟨d', n', hs', hn'⟩ | ⟨l, hl⟩⟩
      · exact hne (he.trans (why_of_free hs hn hj))
      · by_cases hji : j ≤ i
        · obtain ⟨-, hst, -⟩ := slot_upto_succ (by omega) hs'
          rw [stat_of_free hs hn hji] at hst
          cases hst
        · obtain rfl : j = i + 1 := by omega
          rw [show k.slot t (p.upto (i + 1)) = _ from hs'] at hs
          cases hs
          exact hn' hn
      · have hnone : k.stat t (p.upto (i + 1)) = none := stat_of_free hs hn hj
        rw [show k.stat t (p.upto (i + 1)) = some l from hl] at hnone
        cases hnone

/-- What `create_dirs` makes is made where a part of the path names it. -/
theorem create_dirs_made (x : Loc) :
    (k.create_dirs t p i).1.get x = t.get x ∨ ∃ j, k.locate t (p.upto j) = some x := by
  have hmk : ∀ {u u' : FileTree α} {j : Nat}, Grows t u → k.mkdir u (p.upto j) = .ok u' →
      u'.get x = u.get x ∨ k.locate t (p.upto j) = some x := by
    intro u u' j hg h
    obtain ⟨d, n, hs, -, hn, hget⟩ := mkdir_spec h
    by_cases hx : x = d ++ [n]
    · refine .inr ?_
      rw [hx, ← locate_of_slot hs (linkAt_of_none hn)]
      exact (locate_of_linkAt hg.linkAt _ _ _).symm
    · exact .inl (by rw [hget, if_neg hx])
  induction i with
  | zero => exact .inl rfl
  | succ i ih =>
      have hg := create_dirs_grows k t p i
      unfold create_dirs
      dsimp only
      split
      · rename_i h
        exact (hmk (Grows.refl t) h).imp_right fun hj => ⟨_, hj⟩
      · split
        · rename_i h
          rw [h] at ih
          exact ih
        · rename_i h
          rw [h] at ih hg
          split
          · rename_i h'
            rcases hmk hg h' with heq | hj
            · rw [heq]
              exact ih
            · exact .inr ⟨_, hj⟩
          · exact ih
      · exact .inl rfl

/-- **`create_dir_all` makes something** exactly when the path lacks
something. -/
theorem create_dir_all_same_iff :
    (k.create_dir_all t p).1 = t ↔ ¬ k.Lacks t p := by
  constructor
  · rintro h ⟨j, hj, d, n, hs, hn⟩
    obtain ⟨l, hl, hd⟩ := create_dirs_makes hj (Nat.le_refl _) hs hn
    rw [show (k.create_dirs t p p.comps.length).1 = t from h, hl] at hd
    cases hd
  · intro h
    exact create_dirs_same h (Nat.le_refl _)

/-! ## When `create_dir_all` succeeds -/

/-- The first `i` parts of `p`, one after the other, lead to directories, or are free
and then are directories: the tree `u`. -/
inductive Paved (k : Kernel) (t : FileTree α) (p : Path) : Nat → FileTree α → Prop where
  | start : Paved k t p 0 t
  | there {i : Nat} {u : FileTree α} (h : Paved k t p i u)
      (hd : k.is_dir u (p.upto (i + 1)) = true) : Paved k t p (i + 1) u
  | made {i : Nat} {u v : FileTree α} {d : Loc} {n : String} (h : Paved k t p i u)
      (hs : k.slot u (p.upto (i + 1)) = some (d, n)) (hn : u.get (d ++ [n]) = none)
      (hv : ∀ x, v.get x = if x = d ++ [n] then some .dir else u.get x) :
      Paved k t p (i + 1) v

/-- What a path of directories passes on its way is a directory. -/
theorem is_dir_upto (hd : k.is_dir t (p.upto j) = true) (hij : i ≤ j) :
    k.is_dir t (p.upto i) = true := by
  obtain ⟨l, hl, hld⟩ := is_dir_iff.mp hd
  obtain ⟨hs, hf⟩ := stat_eq_some.mp hl
  have hsplit : (p.upto j).comps = (p.upto i).comps ++ (p.comps.take j).drop i := by
    rw [← List.take_append_drop i (p.upto j).comps]
    simp [Path.upto, List.take_take, hij]
  rw [follow_eq, hsplit, walk_append] at hf
  obtain ⟨m, hm, hw⟩ := Option.bind_eq_some_iff.mp hf
  exact is_dir_iff.mpr ⟨m, stat_eq_some.mpr ⟨hs, by rw [follow_eq]; exact hm⟩,
    walk_start_dir hw hld⟩

theorem Paved.grows {u : FileTree α} (h : Paved k t p i u) : Grows t u := by
  induction h with
  | start => exact .refl t
  | there _ _ ih => exact ih
  | made _ _ hn hv ih =>
      refine ih.trans fun x => ?_
      rw [hv]
      split
      · rename_i hx
        exact .inr ⟨hx ▸ hn, rfl⟩
      · exact .inl rfl

theorem Paved.locate {u : FileTree α} (h : Paved k t p i u) (q : Path) :
    k.locate u q = k.locate t q := locate_of_linkAt h.grows.linkAt _ _ _

/-- Where directories lead all the way, nothing is made. -/
theorem Paved.same {u : FileTree α} (h : Paved k t p i u) (hd : k.is_dir t (p.upto i) = true) :
    ∀ x, u.get x = t.get x := by
  induction h with
  | start => exact fun _ => rfl
  | there h _ ih => exact ih (is_dir_upto hd (Nat.le_succ _))
  | made h hs hn hv ih =>
      have hsame := ih (is_dir_upto hd (Nat.le_succ _))
      obtain ⟨q, hq, hqd, -⟩ := slot_spec hs
      obtain ⟨l, hl, -⟩ := is_dir_iff.mp hd
      rw [← stat_of_get_eq hsame, hq, stat_child_of_none hqd hn] at hl
      cases hl

theorem is_dir_of_get_eq {u : FileTree α} (h : ∀ x, u.get x = t.get x) (q : Path) :
    k.is_dir u q = k.is_dir t q := by
  unfold is_dir
  rw [stat_of_get_eq h]
  cases k.stat t q with
  | none => rfl
  | some l => simp only [h]

/-- Of a way that can be paved directories are there, or it is a name on it that is
missing. -/
theorem Paved.way {u : FileTree α} (h : Paved k t p i u) :
    k.is_dir t (p.upto i) = true ∨ ∀ j, i ≤ j → k.why t (p.upto j) = .enoent := by
  induction h with
  | start =>
      by_cases hs : t.get (k.start p) = some .dir
      · exact .inl (is_dir_iff.mpr ⟨k.start p, stat_eq_some.mpr ⟨hs, by rw [follow_eq]; rfl⟩, hs⟩)
      · exact .inr fun j _ => if_neg hs
  | @there i u h hd ih =>
      rcases ih with ht | hw
      · exact .inl ((is_dir_of_get_eq (h.same ht) _).symm.trans hd)
      · exact .inr fun j hj => hw j (by omega)
  | @made i u v d n h hs hn hv ih =>
      rcases ih with ht | hw
      · have hsame := h.same ht
        have hs' := slot_extends (fun l e he => by rw [← hsame, he]) hs
        exact .inr fun j hj => why_of_free hs' (by rw [← hsame, hn]) hj
      · exact .inr fun j hj => hw j (by omega)

/-- Where one part more leads somewhere, there was a directory before it. -/
theorem is_dir_of_stat_succ {l : Loc} (hi : i < p.comps.length)
    (h : k.stat t (p.upto (i + 1)) = some l) : k.is_dir t (p.upto i) = true := by
  obtain ⟨hs, hf⟩ := stat_eq_some.mp h
  have hsplit : (p.upto (i + 1)).comps = (p.upto i).comps ++ [p.comps[i]] :=
    List.take_succ_eq_append_getElem hi
  rw [follow_eq, hsplit, walk_append] at hf
  obtain ⟨m, hm, hw⟩ := Option.bind_eq_some_iff.mp hf
  refine is_dir_iff.mpr ⟨m, stat_eq_some.mpr ⟨hs, by rw [follow_eq]; exact hm⟩, ?_⟩
  cases hc : p.comps[i] with
  | curDir =>
      rw [hc] at hw
      simp only [FileTree.walk] at hw
      split at hw
      · assumption
      · cases hw
  | parentDir =>
      rw [hc] at hw
      simp only [FileTree.walk] at hw
      split at hw
      · assumption
      · cases hw
  | normal n =>
      rw [hc, walk_normal] at hw
      by_contra hmd
      rw [t.get_below (List.cons_ne_nil n []) hmd] at hw
      cases hw

theorem is_dir_of_slot {d : Loc} {n : String} (hi : i < p.comps.length)
    (h : k.slot t (p.upto (i + 1)) = some (d, n)) : k.is_dir t (p.upto i) = true := by
  obtain ⟨-, hs, hd⟩ := slot_upto_succ hi h
  exact is_dir_iff.mpr ⟨d, hs, hd⟩

theorem not_is_dir_of_mkdir {t' : FileTree α} (h : k.mkdir t p = .ok t') : k.is_dir t p = false := by
  obtain ⟨d, n, hs, -, hn, -⟩ := mkdir_spec h
  obtain ⟨q, rfl, hq, -⟩ := slot_spec hs
  rw [is_dir, stat_child_of_none hq hn]

theorem create_dirs_succ (k : Kernel) (t : FileTree α) (p : Path) (i : Nat) :
    k.create_dirs t p (i + 1) =
      match k.mkdir t (p.upto (i + 1)) with
      | .ok t' => (t', none)
      | .error .enoent =>
        match k.create_dirs t p i with
        | (t₁, some e) => (t₁, some e)
        | (t₁, none) =>
          match k.mkdir t₁ (p.upto (i + 1)) with
          | .ok t' => (t', none)
          | .error e => (t₁, if k.is_dir t₁ (p.upto (i + 1)) then none else some e)
      | .error e => (t, if k.is_dir t (p.upto (i + 1)) then none else some e) := rfl

theorem Paved.create_dirs {u : FileTree α} (h : Paved k t p i u) (hi : i ≤ p.comps.length) :
    (k.create_dirs t p i).2 = none ∧ ∀ x, (k.create_dirs t p i).1.get x = u.get x := by
  -- what is in the way of `mkdir` is reached through directories, so that nothing was made
  have before : ∀ {j : Nat} {u : FileTree α} {e : Errno}, Paved k t p j u → j < p.comps.length →
      k.mkdir t (p.upto (j + 1)) = .error e → e ≠ .enoent → k.is_dir t (p.upto j) = true := by
    intro j u e hu hj hm hne
    rcases mkdir_error hm with ⟨he, -⟩ | ⟨-, ⟨d, n, hs, -⟩ | ⟨l, hl⟩⟩
    · rcases hu.way with hd | hw
      · exact hd
      · exact absurd (he.trans (hw _ (Nat.le_succ j))) hne
    · exact is_dir_of_slot hj hs
    · exact is_dir_of_stat_succ hj hl
  induction h with
  | start => exact ⟨rfl, fun _ => rfl⟩
  | @there i u h hd ih =>
      obtain ⟨hok, hget⟩ := ih (by omega)
      rw [create_dirs_succ]
      split
      · rename_i t' hm
        obtain ⟨d, n, hs, -⟩ := mkdir_spec hm
        have hno := not_is_dir_of_mkdir hm
        rw [← is_dir_of_get_eq (h.same (is_dir_of_slot (by omega) hs))] at hno
        rw [hd] at hno
        cases hno
      · split
        · rename_i hc
          rw [hc] at hok
          cases hok
        · rename_i w hc
          rw [hc] at hget
          have hw : k.is_dir w (p.upto (i + 1)) = true := (is_dir_of_get_eq hget _).trans hd
          split
          · rename_i hm
            have hno := not_is_dir_of_mkdir hm
            rw [hw] at hno
            cases hno
          · exact ⟨if_pos hw, hget⟩
      · rename_i hne hm
        have hsame := h.same (before h (by omega) hm hne)
        have ht : k.is_dir t (p.upto (i + 1)) = true := (is_dir_of_get_eq hsame _).symm.trans hd
        exact ⟨if_pos ht, fun x => (hsame x).symm⟩
  | @made i u v d n h hs hn hv ih =>
      obtain ⟨hok, hget⟩ := ih (by omega)
      -- a tree that reads as `u` has room for the directory
      have room : ∀ {w : FileTree α}, (∀ x, w.get x = u.get x) →
          ∃ w', k.mkdir w (p.upto (i + 1)) = .ok w' ∧ ∀ x, w'.get x = v.get x := by
        intro w hw
        have hs' := slot_extends (fun l e he => by rw [hw, he]) hs
        obtain ⟨w', hw'⟩ := mkdir_of_free hs' (by rw [hw, hn])
        refine ⟨w', hw', fun x => ?_⟩
        obtain ⟨d', n', hs₂, -, -, hg⟩ := mkdir_spec hw'
        cases hs'.symm.trans hs₂
        rw [hg, hv, hw]
      rw [create_dirs_succ]
      split
      · rename_i t' hm
        obtain ⟨d', n', hs', -⟩ := mkdir_spec hm
        have hsame := h.same (is_dir_of_slot (by omega) hs')
        obtain ⟨w', hw', hg⟩ := room fun x => (hsame x).symm
        cases hw'.symm.trans hm
        exact ⟨rfl, hg⟩
      · split
        · rename_i hc
          rw [hc] at hok
          cases hok
        · rename_i w hc
          rw [hc] at hget
          obtain ⟨w', hw', hg⟩ := room hget
          split
          · rename_i hm
            cases hw'.symm.trans hm
            exact ⟨rfl, hg⟩
          · rename_i hm
            cases hw'.symm.trans hm
      · rename_i hne hm
        have hsame := h.same (before h (by omega) hm hne)
        obtain ⟨w', hw', -⟩ := room fun x => (hsame x).symm
        cases hw'.symm.trans hm

theorem lacks_child {m : String} (h : k.Lacks t (p.child m)) :
    (∃ t', k.mkdir t (p.child m) = .ok t') ∨
      k.Lacks t p ∧ k.mkdir t (p.child m) = .error .enoent := by
  obtain ⟨j, hj, d, n, hs, hn⟩ := h
  have hlen : (p.child m).comps.length = p.comps.length + 1 := by simp [Path.child]
  have hall : (p.child m).upto (p.comps.length + 1) = p.child m := by
    rw [Path.upto, ← hlen, List.take_length]
  by_cases hjl : j = p.comps.length + 1
  · rw [hjl, hall] at hs
    exact .inl (mkdir_of_free hs hn)
  · have hup : (p.child m).upto p.comps.length = p := by simp [Path.upto, Path.child]
    have hjp : j ≤ p.comps.length := by omega
    refine .inr ⟨⟨j, hjp, d, n, ?_, hn⟩, ?_⟩
    · rw [← hup, upto_upto hjp]
      exact hs
    · have hst := stat_of_free hs hn hjp
      rw [hup] at hst
      have hslot : k.slot t (p.child m) = none := by rw [slot_child, hst]; rfl
      have hnone : k.stat t (p.child m) = none := by rw [stat_child, hst]; rfl
      have hwhy : k.why t (p.child m) = .enoent := by
        have hfree := why_of_free hs hn (j := p.comps.length + 1) (by omega)
        rwa [hall] at hfree
      simp only [mkdir, hslot, unnamed_of_none hnone, hwhy]

/-- **Below a directory that is there**, `create_dir_all` succeeds when it has
anything to make. -/
theorem create_dir_all_of_lacks {b : Path} (hb : k.is_dir t b = true) {r : List String}
    (h : k.Lacks t (b.down r)) : (k.create_dir_all t (b.down r)).2 = none := by
  induction r using List.reverseRecOn with
  | nil =>
    rw [Path.down_nil, create_dir_all_of_is_dir hb]
  | append_singleton r n ih =>
    rw [← Path.down_child] at h ⊢
    rw [create_dir_all_child]
    rcases lacks_child h with ⟨t', ht'⟩ | ⟨hl, hm⟩
    · rw [ht']
    · have hok := ih hl
      have hnd : k.is_dir t (b.down r) = false := by
        rw [Bool.eq_false_iff]
        intro hd
        refine create_dir_all_same_iff.mp ?_ hl
        rw [create_dir_all_of_is_dir hd]
      obtain ⟨l, hs, -, hdir, hempty⟩ := create_dir_all_fresh hb hnd hok
      rw [hm]
      cases hc : k.create_dir_all t (b.down r) with
      | mk t₁ o =>
        rw [hc] at hok hs hdir hempty
        obtain rfl : o = none := hok
        obtain ⟨t₂, ht₂⟩ := mkdir_of_free (slot_child_eq_some.mpr ⟨hs, hdir, rfl⟩)
          (hempty [n] (by simp))
        simp only [ht₂]

end Kernel

end WebDavs.Posix
