/-
What the helper's operations come to, said of the tree before and the tree after.

The hard one is a copy. `copy_recursive` reads the tree that it writes to, and where
links or an old destination let the two meet it reads what it has written: a file that
is copied onto itself is emptied first, and one that has been replaced before its turn
is copied as what it is now. `Undisturbed` is the condition that no such thing happens,
and under it a copy that is reported as done holds what the source held before
(`copy_recursive_mirrors`). The invariant is that every file that is still to be read
is as it was, and that nothing new has turned up where the copy looks.
-/
import WebDavs.Posix.Local
import WebDavs.Sudo

set_option autoImplicit false

namespace WebDavs.Sudo

open WebDavs.Posix WebDavs.Posix.FileTree WebDavs.Mover

/-! ## What it means for an operation to take effect -/

/-- There is a directory at `p`, or nothing to make. -/
def Made (k : Kernel) (t : FileTree Bytes) (p : Path) : Prop :=
  p.comps = [] ∨ k.is_dir t p = true

/-- The entry `src` names, with all below it, is now the one `dst` names. -/
def Moved (k : Kernel) (t t' : FileTree Bytes) (src dst : Path) : Prop :=
  ∃ d n d' n', k.slot t src = some (d, n) ∧ k.slot t dst = some (d', n') ∧
    t.get (d ++ [n]) ≠ none ∧ (∀ r, t'.get (d' ++ [n'] ++ r) = t.get (d ++ [n] ++ r)) ∧
    (d ++ [n] ≠ d' ++ [n'] → t'.get (d ++ [n]) = none)

/-- What was at `r` below `src` is at `r` below `dst`: a file with the bytes it had, or a
directory. -/
def Placed (k : Kernel) (t t' : FileTree Bytes) (src dst : Path) (r : List String) : Prop :=
  (∀ bs, k.read t (src.down r) = some bs → k.read t' (dst.down r) = some bs) ∧
    (k.is_dir t (src.down r) = true → Made k t' (dst.down r))

/-- **`src` has been copied to `dst`**: whatever was reached from it before is in its place
now, with the content it had. -/
def Mirrored (k : Kernel) (t t' : FileTree Bytes) (src dst : Path) : Prop :=
  k.exists_ t src = true ∧ ∀ r, Placed k t t' src dst r

/-- **The operation has taken effect**, between the trees `t` and `t'`; what a
listing is about is in the answer `v`. A move or a copy has a destination to have
gone to. -/
def TookEffect (k : Kernel) (t t' : FileTree Bytes) (v : Json) : Request → Prop
  | .ls p => ∃ l, k.stat t p.path = some l ∧ t.get l = some .dir ∧
      v.get "entries" = some (.arr (entries k t p.path (t.children l)))
  | .transfer is_move src dst strategy =>
      ∃ final_dst, settle k t src dst strategy = .ok final_dst ∧
        v.get "dst" = some (.str final_dst.text) ∧
        if is_move then
          Moved k t t' src.path final_dst.path ∨
            (Mirrored k t t' src.path final_dst.path ∧ k.lstat t' src.path = none)
        else Mirrored k t t' src.path final_dst.path
  | .rename src name => Moved k t t' src.path (src.parent_or_empty.join name).path
  | .mkdir dst => Made k t' dst.path
  | .delete src => k.lstat t' src.path = none
  | .put dst tmp => ∃ m l bs, k.stat t tmp.path = some m ∧ t.get m = some (.file bs) ∧
      k.locate t dst.path = some l ∧ l ≠ m ∧ t'.get l = some (.file bs)

/-- The places that a copy of `src` to `dst` may make: those on the way to `dst`, and one
below `dst` for everything that is reached from `src`. -/
def Makes (k : Kernel) (t : FileTree Bytes) (src dst : Path) (x : Loc) : Prop :=
  (∃ i, k.locate t (dst.upto i) = some x) ∨
    ∃ r, k.exists_ t (src.down r) = true ∧ k.locate t (dst.down r) = some x

/-- **The copy does not disturb what it reads**: no file is copied onto itself, unless it is
empty; where a file is copied onto another one that is to be copied as well, or two are
copied to one place, the bytes are the same; and nothing is made in a directory that is
read, or where a link leads that leads nowhere. -/
structure Undisturbed (k : Kernel) (t : FileTree Bytes) (src dst : Path) : Prop where
  itself : ∀ r l bs, k.stat t (src.down r) = some l → t.get l = some (.file bs) →
    k.locate t (dst.down r) = some l → bs = []
  other : ∀ r l bs w r' l' bs', k.stat t (src.down r) = some l → t.get l = some (.file bs) →
    k.locate t (dst.down r) = some w → k.stat t (src.down r') = some l' →
      t.get l' = some (.file bs') → w = l' ∨ k.locate t (dst.down r') = some w → bs = bs'
  fresh : ∀ r n, k.is_dir t (src.down r) = true → k.exists_ t (src.down (r ++ [n])) = false →
    ∀ x ∈ k.trail t (src.down (r ++ [n])), t.get x = none → ¬ Makes k t src dst x

/-- The way to what has been copied does not lead through the source, so that it is there
when the source has gone. -/
def Elsewhere (k : Kernel) (t : FileTree Bytes) (src : PathBuf) (dst : Path) : Prop :=
  ∀ x, k.entry_at t src.full = some x → ¬ x <+: k.start dst ∧
    ∀ r, k.exists_ t (src.path.down r) = true → ∀ y ∈ k.trail t (dst.down r), ¬ x <+: y

section Copying

variable {k : Kernel} {t u v : FileTree Bytes} {src dst : Path}

/-- What holds while the copy goes on, of the tree `u`. -/
structure Underway (k : Kernel) (t : FileTree Bytes) (src dst : Path) (u : FileTree Bytes) :
    Prop where
  builds : Builds t u
  makes : ∀ x, t.get x = none → u.get x ≠ none → Makes k t src dst x
  kept : ∀ r l bs, k.stat t (src.down r) = some l → t.get l = some (.file bs) →
    u.get l = some (.file bs)

/-- From `u` to `v` nothing is lost that has been copied. -/
structure Secures (k : Kernel) (t : FileTree Bytes) (src dst : Path) (u v : FileTree Bytes) :
    Prop where
  builds : Builds u v
  placed : ∀ r l bs w, k.stat t (src.down r) = some l → t.get l = some (.file bs) →
    k.locate t (dst.down r) = some w → u.get w = some (.file bs) → v.get w = some (.file bs)

theorem Secures.trans {w : FileTree Bytes} (h : Secures k t src dst u v)
    (h' : Secures k t src dst v w) : Secures k t src dst u w where
  builds := h.builds.trans h'.builds
  placed r l bs x hs hl hx hu := h'.placed r l bs x hs hl hx (h.placed r l bs x hs hl hx hu)

theorem Underway.start (k : Kernel) (t : FileTree Bytes) (src dst : Path) :
    Underway k t src dst t :=
  ⟨.refl t, fun _ hn hx => absurd hn hx, fun _ _ _ _ hl => hl⟩

theorem Made.builds {p : Path} (h : Made k u p) (hb : Builds u v) : Made k v p := by
  rcases h with h | h
  · exact .inl h
  · obtain ⟨l, hs, hl⟩ := Kernel.is_dir_iff.mp h
    exact .inr (Kernel.is_dir_iff.mpr ⟨l, Kernel.stat_builds hb hs, hb.dir l hl⟩)

theorem exists_of_stat {p : Path} {l : Loc} (h : k.stat t p = some l) : k.exists_ t p = true := by
  rw [Kernel.exists_, h]
  rfl

/-- What is above something that is reached is reached. -/
theorem exists_take {r : List String} (h : k.exists_ t (src.down r) = true) (i : Nat) :
    k.exists_ t (src.down (r.take i)) = true := by
  obtain ⟨l, hl⟩ := Option.isSome_iff_exists.mp h
  have hdown : (src.down (r.take i)).down (r.drop i) = src.down r := by
    rw [Path.down_down, List.take_append_drop]
  rw [← hdown, Kernel.stat_down] at hl
  obtain ⟨m, hm, -⟩ := Option.bind_eq_some_iff.mp hl
  exact exists_of_stat hm

/-- Making a directory of the copy. -/
theorem Underway.grow {r : List String} (h : Underway k t src dst u)
    (hr : k.exists_ t (src.down r) = true) (f : Fault) :
    Underway k t src dst (create_dir_all k u (dst.down r) f).1 ∧
      Secures k t src dst u (create_dir_all k u (dst.down r) f).1 := by
  have hg := create_dir_all_grows k u (dst.down r) f
  refine ⟨⟨h.builds.trans hg.builds, fun x hn hx => ?_, fun q l bs hs hl =>
    hg.extends _ _ (h.kept q l bs hs hl)⟩, ⟨hg.builds, fun _ _ _ _ _ _ _ hu => hg.extends _ _ hu⟩⟩
  by_cases hux : u.get x = none
  · -- a new directory is one on the way to the path
    have hway : ∀ i, k.locate u ((dst.down r).upto i) = some x → Makes k t src dst x := by
      intro i hi
      rw [Kernel.locate_builds h.builds] at hi
      rcases Path.upto_down dst r i with hup | ⟨m, hup⟩
      · exact .inl ⟨i, hup ▸ hi⟩
      · exact .inr ⟨r.take m, exists_take hr m, hup ▸ hi⟩
    have hmade : (create_dir_all k u (dst.down r) f).1.get x = u.get x ∨
        ∃ i, k.locate u ((dst.down r).upto i) = some x := by
      cases f with
      | none => exact Kernel.create_dirs_made x
      | part e n =>
          refine (Kernel.create_dirs_made x).imp (fun he => he) fun ⟨i, hi⟩ => ?_
          exact ⟨min i n, by rw [Path.upto, ← List.take_take]; exact hi⟩
      | error e => exact .inl rfl
      | lost e gone => exact .inl rfl
    rcases hmade with he | ⟨i, hi⟩
    · exact absurd (he.trans hux) hx
    · exact hway i hi
  · exact h.makes x hn hux

/-- Of what is not there nothing is reached. -/
theorem placed_of_absent {r s : List String} {l : Loc} {n : String}
    (hs : k.stat t (src.down r) = some l) (hn : t.get (l ++ [n]) = none) :
    Placed k t v src dst (r ++ n :: s) := by
  have hnone : k.stat t (src.down (r ++ n :: s)) = none := by
    rw [← Path.down_down, Kernel.stat_down, hs, Option.bind_some]
    simp [Path.names, walk_normal, hn]
  refine ⟨fun bs hr => ?_, fun hd => ?_⟩
  · obtain ⟨m, hm, -⟩ := Kernel.read_eq_some.mp hr
    rw [hnone] at hm
    cases hm
  · obtain ⟨m, hm, -⟩ := Kernel.is_dir_iff.mp hd
    rw [hnone] at hm
    cases hm

/-- One file is copied. -/
theorem Underway.file (h : Underway k t src dst u) (hU : Undisturbed k t src dst)
    {r : List String} {l : Loc} (hs : k.stat t (src.down r) = some l)
    (hl : t.get l ≠ some .dir) {f : Fault} {m : Nat}
    (hc : copy_file k u (src.down r) (dst.down r) f = (v, .ok m)) :
    Underway k t src dst v ∧ Secures k t src dst u v ∧ ∀ s, Placed k t v src dst (r ++ s) := by
  obtain ⟨e, he, hsym⟩ := Kernel.stat_spec hs
  obtain ⟨bs, rfl⟩ : ∃ bs, e = .file bs := by
    cases e with
    | dir => exact absurd he hl
    | symlink tgt => exact absurd rfl (hsym tgt)
    | file bs => exact ⟨bs, rfl⟩
  rcases copy_file_spec hc with ⟨-, e, he'⟩ | ⟨l', d, n, c, hs', hp, -, hnd, hget, hok⟩
  · cases he'
  obtain rfl : l = l' := Option.some.inj ((Kernel.stat_builds h.builds hs).symm.trans hs')
  obtain ⟨bs', hbs', hcbs⟩ := hok m rfl
  have hkept := h.kept r l bs hs he
  obtain rfl : bs = bs' := by
    rw [hkept] at hbs'
    cases hbs'
    rfl
  obtain ⟨-, hlink, hloc⟩ := Kernel.place_spec hp
  rw [Kernel.locate_builds h.builds] at hloc
  -- a file that is copied onto itself was empty
  obtain rfl : c = bs := by
    by_cases hself : l = d ++ [n]
    · rw [if_pos hself] at hcbs
      rw [hcbs, hU.itself r l bs hs he (by rw [hloc, hself])]
    · rw [if_neg hself] at hcbs
      exact hcbs
  have hnew : v.get (d ++ [n]) = some (.file c) := by rw [hget, if_pos rfl]
  have hrest : ∀ x, x ≠ d ++ [n] → v.get x = u.get x := fun x hx => by rw [hget, if_neg hx]
  have hb : Builds u v := builds_of_leaf hnd hlink hnew hrest
  refine ⟨⟨h.builds.trans hb, fun x hn hx => ?_, fun r' l' bs' hs' hl' => ?_⟩,
    ⟨hb, fun r' l' bs' w hs' hl' hw hu => ?_⟩, fun s => ?_⟩
  · by_cases hxn : x = d ++ [n]
    · exact .inr ⟨r, exists_of_stat hs, by rw [hxn, hloc]⟩
    · exact h.makes x hn (by rwa [hrest x hxn] at hx)
  · by_cases hln : l' = d ++ [n]
    · rw [hln, hnew, hU.other r l c _ r' l' bs' hs he hloc hs' hl' (.inl hln.symm)]
    · rw [hrest _ hln]
      exact h.kept r' l' bs' hs' hl'
  · by_cases hwn : w = d ++ [n]
    · rw [hwn, hnew, hU.other r l c _ r' l' bs' hs he hloc hs' hl' (.inr (hwn ▸ hw))]
    · rw [hrest _ hwn]
      exact hu
  · by_cases hnil : s = []
    · subst hnil
      rw [List.append_nil]
      refine ⟨fun bs hr => ?_, fun hd => ?_⟩
      · obtain ⟨l', hl', hbs⟩ := Kernel.read_eq_some.mp hr
        cases hs.symm.trans hl'
        cases he.symm.trans hbs
        exact Kernel.read_eq_some.mpr ⟨_, Kernel.stat_of_place hnew hnd hrest hp, hnew⟩
      · obtain ⟨l', hl', hld⟩ := Kernel.is_dir_iff.mp hd
        cases hs.symm.trans hl'
        exact absurd hld hl
    · obtain ⟨n, s, rfl⟩ := List.exists_cons_of_ne_nil hnil
      exact placed_of_absent hs (t.get_below (List.cons_ne_nil n []) hl)

end Copying

/-! ## What the other parts of a run do -/

/-- Whatever it reports, `remove_recursive` leaves alone what is not at the entry that is
looked at or below it. -/
theorem remove_recursive_get {k : Kernel} {t : FileTree Bytes} {p : PathBuf} {f : Fault} {y : Loc}
    (hy : ∀ x, k.entry_at t p.full = some x → ¬ x <+: y) :
    (remove_recursive k t p f).1.get y = t.get y := by
  unfold remove_recursive
  split
  · rcases remove_dir_all_at_get k t p.path p.tail f y with h | ⟨-, x, hx, hpre⟩
    · exact h
    · exact absurd hpre (hy x hx)
  · split
    · rename_i t' hr
      obtain ⟨d, n, e, hs, -, -, hget⟩ := Kernel.remove_file_spec (remove_file_ok hr)
      have hfull : p.full = p.path := by
        rw [PathBuf.full, remove_file_at_ok hr, Path.tailed_none]
      have hne : y ≠ d ++ [n] := fun he =>
        hy _ (hfull ▸ Kernel.entry_at_of_slot hs) (he ▸ List.prefix_rfl)
      exact (hget y).trans (if_neg hne)
    · rfl

/-- What is elsewhere stays in its place when the source goes. -/
theorem Placed.spared {k : Kernel} {t u : FileTree Bytes} {src : PathBuf} {dst : Path}
    {r : List String} {f : Fault} (h : Placed k t u src.path dst r) (hb : Builds t u)
    (hE : Elsewhere k t src dst) (hsrc : k.exists_ t src.full = true) :
    Placed k t (remove_recursive k u src f).1 src.path dst r := by
  obtain ⟨x, hx⟩ := Kernel.entry_at_of_exists hsrc
  obtain ⟨hstart, hway⟩ := hE x hx
  have hxu := Kernel.entry_at_builds hb hx
  have hsame : Same (fun y => ¬ x <+: y) u (remove_recursive k u src f).1 := by
    intro y hy
    refine remove_recursive_get fun x' hx' => ?_
    cases hxu.symm.trans hx'
    exact hy
  have hseen : k.exists_ t (src.path.down r) = true →
      Kernel.Seen k (fun y => ¬ x <+: y) u (dst.down r) := by
    refine fun hr => ⟨hstart, ?_⟩
    rw [Kernel.trail_builds hb]
    exact hway r hr
  refine ⟨fun bs hbs => ?_, fun hd => ?_⟩
  · obtain ⟨l, hl, -⟩ := Kernel.read_eq_some.mp hbs
    rw [Kernel.read_same hsame (hseen (exists_of_stat hl))]
    exact h.1 bs hbs
  · obtain ⟨l, hl, -⟩ := Kernel.is_dir_iff.mp hd
    refine (h.2 hd).imp (fun hn => hn) fun hdir => ?_
    rw [Kernel.is_dir_same hsame (hseen (exists_of_stat hl))]
    exact hdir

theorem make_parent_grows (k : Kernel) (t : FileTree Bytes) (p : Path) (f : Fault) :
    FileTree.Grows t (make_parent k t p f).1 := by
  unfold make_parent
  split
  · exact create_dir_all_grows k t _ f
  · exact FileTree.Grows.refl t

end WebDavs.Sudo
