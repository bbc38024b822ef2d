/-
The ground of a job: what its calls look at, and what they change.

A job works on the place its source names and, unless it is a deletion, on the one
its destination names. Its ground is these two trees and the ways to them
(`reads`); it changes the trees, and makes directories that are missing on the way
to the destination (`writes`). Two jobs are apart when neither writes what the
other reads.

Every call of a job is one of `Posix.Local`, with an error put in or not, so on two
trees that are the same on the job's ground a job takes the same step
(`Machine.step_same`), and what it leaves alone it leaves alone
(`Machine.step_within`).
-/
import WebDavs.Posix.Local
import WebDavs.Server
import WebDavs.Walk

set_option autoImplicit false

namespace WebDavs.Mover

open WebDavs.Posix WebDavs.Posix.FileTree WebDavs.Posix.Kernel

section

variable {k : Kernel} {V W : Loc → Prop} {u v u' : FileTree Bytes} {p q : Path} {P Q : Loc}
variable {f : Fault} {b c : Path.Tail}

/-! ## The calls, with what the environment does to them -/

theorem rename_alike (h : Same V u v) (hp : Rooted k V u p P) (hq : Rooted k V u q Q) :
    Alike V (rename k u p q f) (rename k v p q f) := by
  unfold rename
  split
  · exact .error _
  · exact Kernel.rename_alike h hp hq

theorem remove_file_alike (h : Same V u v) (hp : Rooted k V u p P) :
    Alike V (remove_file k u p f) (remove_file k v p f) := by
  unfold remove_file
  split
  · exact .error _
  · exact Kernel.remove_file_alike h hp.seen

theorem remove_dir_alike (h : Same V u v) (hp : Rooted k V u p P) :
    Alike V (remove_dir k u p f) (remove_dir k v p f) := by
  unfold remove_dir
  split
  · exact .error _
  · exact Kernel.remove_dir_alike h hp

theorem create_dir_all_alike (h : Same V u v) (hp : Rooted k V u p P) :
    Same V (create_dir_all k u p f).1 (create_dir_all k v p f).1 ∧
      (create_dir_all k v p f).2 = (create_dir_all k u p f).2 := by
  cases f with
  | none => exact Kernel.create_dir_all_alike h hp.seen
  | error e => exact ⟨h, rfl⟩
  | part e n => exact ⟨(Kernel.create_dir_all_alike h (hp.seen.upto n)).1, rfl⟩
  | lost e gone => exact ⟨h, rfl⟩

theorem remove_dir_all_alike (h : Same V u v) (hp : Rooted k V u p P) :
    Same V (remove_dir_all k u p f).1 (remove_dir_all k v p f).1 := by
  cases f with
  | none => exact (Kernel.remove_dir_all_alike h hp).1
  | error e => exact h
  | part e n => exact h
  | lost e gone =>
      unfold remove_dir_all
      dsimp only
      rw [lstat_same h hp.seen, stat_same h hp.seen]
      split
      · exact eraseAll_same h _
      · exact h

theorem remove_dir_all_at_alike (h : Same V u v) (hp : Rooted k V u p P) :
    Same V (remove_dir_all_at k u p b f).1 (remove_dir_all_at k v p b f).1 := by
  unfold remove_dir_all_at
  rw [lstat_same h hp.seen]
  split
  · exact remove_dir_all_alike h hp
  · have hseen := hp.seen.tailed .dot
    rw [Path.tailed_of_ne (by simp)] at hseen
    cases f with
    | none => exact Kernel.remove_dir_all_dotted_alike h hp
    | error e => exact h
    | part e n => exact h
    | lost e gone =>
        unfold remove_dir_all
        dsimp only
        rw [lstat_same h hseen, stat_same h hseen]
        split
        · exact eraseAll_same h _
        · exact h

theorem copy_file_alike (h : Same V u v) (hp : Rooted k V u p P) (hq : Rooted k V u q Q) :
    Same V (copy_file k u p q f).1 (copy_file k v p q f).1 ∧
      (copy_file k v p q f).2 = (copy_file k u p q f).2 := by
  have hq' : Rooted k V v q Q := hq.congr fun x hx => h.link hx
  have hplace : k.place v q = k.place u q := by rw [hq'.place, hq.place, slot_same h hq.seen]
  unfold copy_file
  rw [stat_same h hp.seen, hplace, why_same h hp.seen, unnamed_same h hq.seen]
  split
  · exact ⟨h, rfl⟩
  · exact ⟨h, rfl⟩
  · split
    · exact ⟨h, rfl⟩
    · exact ⟨h, rfl⟩
    · rename_i l d n hs hpl
      have hl : v.get l = u.get l := get_same h hp.seen hs
      rw [hq.place] at hpl
      obtain ⟨hdn, hd⟩ := hq.slot hpl
      -- its directory is there in both
      have hd' : v.get d = some .dir := by
        obtain ⟨x, rfl, hx, -⟩ := slot_spec hpl
        rw [get_same h hq.seen.parent hx, hd]
      have hn : v.get (d ++ [n]) = u.get (d ++ [n]) := h _ (hq.seen.way _ (slot_mem_trail hpl))
      rw [hl]
      by_cases hdir : u.get (d ++ [n]) = some .dir
      · rw [dif_neg fun hc => hc.2 hdir, dif_neg fun hc => hc.2 (hn.trans hdir)]
        exact ⟨h, rfl⟩
      · have hdir' : v.get (d ++ [n]) ≠ some .dir := by rwa [hn]
        have hput : ∀ e, Same V (u.put d n e hd hdir) (v.put d n e hd' hdir') :=
          fun e => put_same h
        rw [dif_pos ⟨hd, hdir⟩, dif_pos ⟨hd', hdir'⟩]
        split
        · dsimp only
          split
          · exact ⟨hput _, rfl⟩
          · exact ⟨hput _, rfl⟩
        · exact ⟨hput _, rfl⟩

/-! ## What is written behind a name

What it makes of a call is a matter of the same ground. -/

theorem why_dotted_same (h : Same V u v) (hp : Rooted k V u p P) :
    k.why v p.dotted = k.why u p.dotted := by
  have hseen := hp.seen.tailed .dot
  rw [Path.tailed_of_ne (by simp)] at hseen
  exact why_same h hseen

theorem dot_errno_same (h : Same V u v) (hp : Rooted k V u p P) (e : Errno) :
    dot_errno k v p e = dot_errno k u p e := by
  unfold dot_errno
  rw [is_dir_same h hp.seen, why_dotted_same h hp]

theorem rename_at_same (h : Same V u v) (hp : Rooted k V u p P) (hq : Rooted k V u q Q) :
    f.rename_at k v p b q c = f.rename_at k u p b q c := by
  have hcall := Kernel.rename_alike h hp hq
  unfold Fault.rename_at
  rw [dot_errno_same h hp, dot_errno_same h hq, lstat_same h hp.seen, slot_same h hp.seen,
    slot_same h hq.seen]
  generalize k.rename u p q = x at hcall ⊢
  generalize k.rename v p q = y at hcall ⊢
  cases hcall with
  | ok hsame => cases f.errno <;> rfl
  | error e => rfl

theorem remove_file_at_same (h : Same V u v) (hp : Rooted k V u p P) :
    f.remove_file_at k v p b = f.remove_file_at k u p b := by
  unfold Fault.remove_file_at
  rw [lstat_same h hp.seen, dot_errno_same h hp]

theorem remove_dir_at_same (h : Same V u v) (hp : Rooted k V u p P) :
    f.remove_dir_at k v p b = f.remove_dir_at k u p b := by
  unfold Fault.remove_dir_at
  rw [dot_errno_same h hp]

theorem create_dir_all_at_same (h : Same V u v) (hp : Rooted k V u p P) :
    f.create_dir_all_at k v p b = f.create_dir_all_at k u p b := by
  unfold Fault.create_dir_all_at
  rw [is_dir_same h hp.seen, dot_errno_same h hp]

theorem copy_file_at_same (h : Same V u v) (hp : Rooted k V u p P) (hq : Rooted k V u q Q) :
    f.copy_file_at k v p b q c = f.copy_file_at k u p b q c := by
  have hq' : Rooted k V v q Q := hq.congr fun x hx => h.link hx
  have hplace : k.place v q = k.place u q := by rw [hq'.place, hq.place, slot_same h hq.seen]
  unfold Fault.copy_file_at
  rw [stat_same h hp.seen, hplace, dot_errno_same h hq]
  cases hs : k.stat u p with
  | none => cases f <;> rfl
  | some l =>
      have hget := get_same h hp.seen hs
      cases f with
      | none => simp only [hget]
      | part e n => simp only [hget]
      | error e => rfl
      | lost e gone => rfl

theorem walk_from_same {α : Type} (h : Same V u v) (hp : Rooted k V u p P)
    (w : Option (Except Errno α)) : walk_from k v p b w = walk_from k u p b w := by
  unfold walk_from
  rw [is_dir_same h hp.seen, why_dotted_same h hp]

/-! ## Where they stay -/

theorem rename_within (hp : Rooted k V u p P) (hq : Rooted k V u q Q) (hwp : ∀ r, W (P ++ r))
    (hwq : ∀ r, W (Q ++ r)) (h : rename k u p q f = .ok u') : Within W u u' :=
  Kernel.rename_within hp hq hwp hwq (rename_ok h)

theorem remove_file_within (hp : Rooted k V u p P) (hw : ∀ r, W (P ++ r))
    (h : remove_file k u p f = .ok u') : Within W u u' :=
  Kernel.remove_file_within hp hw (remove_file_ok h)

theorem remove_dir_within (hp : Rooted k V u p P) (hw : ∀ r, W (P ++ r))
    (h : remove_dir k u p f = .ok u') : Within W u u' :=
  Kernel.remove_dir_within hp hw (remove_dir_ok h)

theorem create_dir_all_within (hp : ∀ x ∈ k.trail u p, u.get x = none → W x) :
    Within W u (create_dir_all k u p f).1 := by
  cases f with
  | none => exact Kernel.create_dir_all_within hp
  | error e => exact Within.refl W u
  | part e n =>
      exact Kernel.create_dir_all_within fun x hx hn => hp x (trail_upto (p := p) n hx) hn
  | lost e gone => exact Within.refl W u

theorem remove_dir_all_within (hp : Rooted k V u p P) (hw : ∀ r, W (P ++ r)) :
    Within W u (remove_dir_all k u p f).1 := by
  cases f with
  | none => exact Kernel.remove_dir_all_within hp hw
  | error e => exact Within.refl W u
  | part e n => exact Within.refl W u
  | lost e gone =>
      unfold remove_dir_all
      dsimp only
      split
      · rename_i l _ hs
        obtain rfl := hp.stat hs
        refine eraseAll_within hw hp.plain fun y hy => ?_
        simpa using (List.mem_filter.mp hy).2
      · exact Within.refl W u

theorem remove_dir_all_at_within (hp : Rooted k V u p P) (hw : ∀ r, W (P ++ r)) :
    Within W u (remove_dir_all_at k u p b f).1 := by
  unfold remove_dir_all_at
  split
  · exact remove_dir_all_within hp hw
  · cases f with
    | none => exact Kernel.remove_dir_all_dotted_within hp hw
    | error e => exact Within.refl W u
    | part e n => exact Within.refl W u
    | lost e gone =>
        unfold remove_dir_all
        dsimp only
        split
        · rename_i l _ hs
          obtain rfl := hp.stat (Kernel.stat_dotted_eq_some.mp hs).1
          refine eraseAll_within hw hp.plain fun y hy => ?_
          simpa using (List.mem_filter.mp hy).2
        · exact Within.refl W u

theorem copy_file_within (hq : Rooted k V u q Q) (hw : W Q) :
    Within W u (copy_file k u p q f).1 := by
  unfold copy_file
  split
  · exact Within.refl W u
  · exact Within.refl W u
  · split
    · exact Within.refl W u
    · exact Within.refl W u
    · rename_i l d n hs hpl
      rw [hq.place] at hpl
      obtain ⟨rfl, -⟩ := hq.slot hpl
      split
      · rename_i hc
        have hput : ∀ bs, Within W u (u.put d n (.file bs) hc.1 hc.2) :=
          fun bs => put_within hw hq.link (by simp)
        dsimp only
        split
        · split
          · exact hput _
          · exact hput _
        · exact hput _
      · exact Within.refl W u

/-! ## The walks -/

/-- On a tree that is the same, and read in the same order, a walk is the same. -/
theorem walk_same (h : Same V u v) (ho : SameOrder V u v) (hp : Rooted k V u p P) (fuel : Nat)
    (rel : List String) : walk k v fuel p rel = walk k u fuel p rel := by
  induction fuel generalizing p P rel with
  | zero => rfl
  | succ fuel ih =>
      simp only [walk]
      rw [stat_same h hp.seen, lstat_same h hp.seen, why_same h hp.seen]
      cases hs : k.stat u p with
      | none => rfl
      | some l =>
          have hl : v.get l = u.get l := get_same h hp.seen hs
          obtain rfl := hp.stat hs
          have hch : v.children l = u.children l := children_same h ho fun n => hp.below [n]
          have hall : ∀ n, walk k v fuel (p.child n) (rel ++ [n])
              = walk k u fuel (p.child n) (rel ++ [n]) := by
            intro n
            exact ih (hp.down [n]) _
          dsimp only
          rw [hl, hch]
          simp only [hall]

end

/-! ## What a job works on -/

/-- What a job was asked to do. A deletion has its source for a destination. -/
structure Errand where
  op : Op
  src : Path
  dst : Path
deriving DecidableEq

/-- The errand of a thread. -/
def Machine.errand : Machine → Errand
  | run r => ⟨r.op, r.src, r.dst⟩
  | erase d => ⟨.delete, d.src, d.src⟩

/-- What the calls of a job look at, when it starts on the tree `t`: where its two
paths lead through, and what is at and below the places they name. -/
def Errand.reads (a : Errand) (k : Kernel) (t : FileTree Bytes) (x : Loc) : Prop :=
  ∃ p, (p = a.src ∨ p = a.dst) ∧
    (x = k.start p ∨ x ∈ k.trail t p ∨ ∃ P, k.locate t p = some P ∧ P <+: x)

/-- What they may change: what is at and below the destination, directories that are
missing on the way there, and, unless it is a copy, what is at and below the
source. -/
def Errand.writes (a : Errand) (k : Kernel) (t : FileTree Bytes) (x : Loc) : Prop :=
  (a.op ≠ .copy ∧ ∃ P, k.locate t a.src = some P ∧ P <+: x) ∨
    (∃ P, k.locate t a.dst = some P ∧ P <+: x) ∨ (x ∈ k.trail t a.dst ∧ t.get x = none)

/-- Neither job writes what the other reads. -/
def Errand.Apart (k : Kernel) (t : FileTree Bytes) (a b : Errand) : Prop :=
  (∀ x, a.writes k t x → ¬ b.reads k t x) ∧ ∀ x, b.writes k t x → ¬ a.reads k t x

/-- `p` names a place, with no link at or below it. -/
def Straight (k : Kernel) (t : FileTree Bytes) (p : Path) : Prop :=
  ∃ q n d, p = Path.child q n ∧ k.locate t q = some d ∧ ∀ r, t.linkAt (d ++ [n] ++ r) = none

/-- Both paths of a job are such. -/
def Errand.Straight (k : Kernel) (t : FileTree Bytes) (a : Errand) : Prop :=
  Mover.Straight k t a.src ∧ Mover.Straight k t a.dst

/-- What makes `V` and `W` the ground of an errand, in the tree as it is. -/
structure Sited (k : Kernel) (V W : Loc → Prop) (u : FileTree Bytes) (a : Errand) (S D : Loc) :
    Prop where
  src : Rooted k V u a.src S
  dst : Rooted k V u a.dst D
  off : a.op ≠ .copy → ∀ r, W (S ++ r)
  into : ∀ r, W (D ++ r)
  ways : ∀ x ∈ k.trail u a.dst, u.get x = none → W x

section

variable {k : Kernel} {t : FileTree Bytes} {a : Errand}

theorem rooted_of_straight {p : Path} (hp : p = a.src ∨ p = a.dst) (h : Straight k t p) :
    ∃ P, k.locate t p = some P ∧ Rooted k (a.reads k t) t p P := by
  obtain ⟨q, n, d, rfl, hq, hl⟩ := h
  have hseen : Seen k (a.reads k t) t (q.child n) :=
    ⟨⟨_, hp, .inl rfl⟩, fun x hx => ⟨_, hp, .inr (.inl hx)⟩⟩
  have hloc : k.locate t (q.child n) = some (d ++ [n]) :=
    locate_child hq (by simpa using hl [])
  exact ⟨d ++ [n], hloc, ⟨q, n, d, rfl, hq, rfl⟩, hseen,
    fun r => ⟨_, hp, .inr (.inr ⟨_, hloc, List.prefix_append _ _⟩)⟩, hl⟩

/-- At the start, a job is on its ground. -/
theorem sited_start (h : a.Straight k t) :
    ∃ S D, Sited k (a.reads k t) (a.writes k t) t a S D := by
  obtain ⟨S, hS, hsrc⟩ := rooted_of_straight (.inl rfl) h.1
  obtain ⟨D, hD, hdst⟩ := rooted_of_straight (.inr rfl) h.2
  exact ⟨S, D, hsrc, hdst, fun hop r => .inl ⟨hop, S, hS, List.prefix_append _ _⟩,
    fun r => .inr (.inl ⟨D, hD, List.prefix_append _ _⟩), fun x hx hn => .inr (.inr ⟨hx, hn⟩)⟩

end

section

variable {k : Kernel} {V W : Loc → Prop} {u v : FileTree Bytes} {a : Errand} {S D : Loc}

/-- It stays there while no link comes or goes, and what is missing on the way to
the destination was missing, or is its own. -/
theorem Sited.keep (h : Sited k V W u a S D) (hl : ∀ x, V x → v.linkAt x = u.linkAt x)
    (hn : ∀ x, V x → v.get x = none → u.get x = none ∨ W x) : Sited k V W v a S D where
  src := h.src.congr hl
  dst := h.dst.congr hl
  off := h.off
  into := h.into
  ways x hx hnone := by
    rw [(locate_trail fun y hy => hl y (h.dst.seen.way y hy)).2] at hx
    rcases hn x (h.dst.seen.way x hx) hnone with hu | hw
    · exact h.ways x hx hu
    · exact hw

/-- The ways to the targets of a job. -/
theorem Sited.target_ways (h : Sited k V W u a S D) (r : List String) :
    ∀ x ∈ k.trail u (a.dst.down r), u.get x = none → W x := by
  intro x hx hn
  rcases mem_trail_down h.dst.locate (fun s _ _ => h.dst.plain s) hx with hx | ⟨s, -, -, rfl⟩
  · exact h.ways x hx hn
  · exact h.into s

end

/-! ## Steps that are the same -/

/-- No step, or the same step, to trees that are the same on `V`. -/
inductive Abreast (V : Loc → Prop) {β : Type} :
    Option (FileTree Bytes × β) → Option (FileTree Bytes × β) → Prop
  | none : Abreast V none none
  | some {u v : FileTree Bytes} (h : Same V u v) (x : β) : Abreast V (some (u, x)) (some (v, x))

theorem Abreast.map {V : Loc → Prop} {β γ : Type} {a b : Option (FileTree Bytes × β)} (g : β → γ)
    (h : Abreast V a b) :
    Abreast V (a.map fun x => (x.1, g x.2)) (b.map fun x => (x.1, g x.2)) := by
  cases h with
  | none => exact .none
  | some h x => exact .some h (g x)

/-- What the walk lists are paths below its start, each under its relative path. -/
def ListedBelow (src : Path) (l : Listing) : Prop := ∀ g ∈ l.files, g.1 = src.down g.2

/-- The same of a deletion. -/
def RemovalsBelow (src : Path) (r : Removals) : Prop :=
  (∀ g ∈ r.files, ∃ s, g = src.down s) ∧ ∀ g ∈ r.dirs, ∃ s, g = src.down s

/-- Only a move renames and removes. -/
def Worker.Allowed (op : Op) : Worker → Prop
  | .rename _ => op = .move
  | .remove _ => op = .move
  | _ => True

/-- What a job is at is in keeping with its errand. -/
def Phase.Proper (op : Op) (src : Path) : Phase → Prop
  | .checking l => ListedBelow src l
  | .renaming l => ListedBelow src l ∧ op = .move
  | .making l _ => ListedBelow src l
  | .working l ws _ _ => ListedBelow src l ∧ ∀ w ∈ ws, w.Allowed op
  | .cleaning l _ => ListedBelow src l
  | _ => True

/-- The same of a deletion. -/
def Clearing.Proper (src : Path) : Clearing → Prop
  | .working r _ _ _ => RemovalsBelow src r
  | .clearing r _ _ => RemovalsBelow src r
  | .emptying r _ _ => RemovalsBelow src r
  | _ => True

/-- The same of either. -/
def Machine.Proper : Machine → Prop
  | .run r => r.phase.Proper r.op r.src
  | .erase d => d.phase.Proper d.src

section

variable {k : Kernel} {u : FileTree Bytes} {p : Path}

theorem walk_paths {fuel : Nat} {l : Listing} (h : walk_files k u fuel p = some (.ok l)) :
    ListedBelow p l := by
  obtain ⟨vs, hvs, hmap⟩ := Option.map_eq_some_iff.mp h
  cases vs with
  | error e => cases hmap
  | ok vs =>
      cases hmap
      intro g hg
      obtain ⟨v, hv, hleaf⟩ := List.mem_filterMap.mp hg
      obtain ⟨e, -, rfl⟩ := Option.map_eq_some_iff.mp hleaf
      obtain ⟨s, hpath, hrel, -⟩ := walk_sound hvs hv
      rw [hpath, hrel, List.nil_append]

theorem walk_delete_paths {fuel : Nat} {r : Removals}
    (h : walk_delete k u fuel p = some (.ok r)) : RemovalsBelow p r := by
  obtain ⟨vs, hvs, hmap⟩ := Option.map_eq_some_iff.mp h
  cases vs with
  | error e => cases hmap
  | ok vs =>
      cases hmap
      refine ⟨fun g hg => ?_, fun g hg => ?_⟩
      · obtain ⟨v, hv, hleaf⟩ := List.mem_filterMap.mp hg
        obtain ⟨e, -, rfl⟩ := Option.map_eq_some_iff.mp hleaf
        obtain ⟨s, hpath, -⟩ := walk_sound hvs hv
        exact ⟨s, hpath⟩
      · obtain ⟨v, hv, hdir⟩ := List.mem_filterMap.mp hg
        obtain ⟨s, hpath, -⟩ := walk_sound hvs hv
        by_cases hnone : v.leaf.isNone
        · rw [if_pos hnone] at hdir
          cases hdir
          exact ⟨s, hpath⟩
        · rw [if_neg hnone] at hdir
          cases hdir

end

/-- A job that has not walked its source has changed nothing yet. -/
def Machine.Early : Machine → Prop
  | .run r => r.phase = .queued ∨ r.phase = .walking
  | .erase d => d.phase = .queued ∨ d.phase = .checking ∨ d.phase = .walking

section

variable {k : Kernel} {V W : Loc → Prop} {u v u' : FileTree Bytes} {S D : Loc}

theorem work_same_ground {r : Runner} {l : Listing} {next failed : Nat} {f : Fault} {w : Worker}
    (hs : Sited k V W u ⟨r.op, r.src, r.dst⟩ S D)
    (hl : ListedBelow r.src l) (h : Same V u v) :
    Abreast V (Runner.work k u r l next failed f w) (Runner.work k v r l next failed f w) := by
  -- the file a worker has, and its target, are on the ground
  have hfile : ∀ (i : Nat) g, l.files[i]? = some g →
      Rooted k V u g.1 (S ++ g.2) ∧ Rooted k V u (r.dst.down g.2) (D ++ g.2) := by
    intro i g hg
    rw [hl g (List.mem_of_getElem? hg)]
    exact ⟨hs.src.down g.2, hs.dst.down g.2⟩
  cases w with
  | idle =>
      simp only [Runner.work]
      split
      · exact .some h _
      · exact .some h _
  | measure idx =>
      simp only [Runner.work]
      split
      · exact .none
      · rename_i sf rel hg
        have hsize : Runner.file_size k v sf f = Runner.file_size k u sf f := by
          unfold Runner.file_size
          rw [lstat_same h (hfile _ _ hg).1.seen]
        rw [hsize]
        exact .some h _
  | announce task =>
      simp only [Runner.work]
      split
      · exact .none
      · exact .some h _
  | rename task =>
      simp only [Runner.work]
      split
      · exact .none
      · rename_i sf rel hg
        rw [target_path_eq, rename_at_same h (hfile _ _ hg).1 (hfile _ _ hg).2]
        generalize f.rename_at k u sf .none (r.dst.down rel) (r.target_tail rel) = g
        have hcall := rename_alike (f := g) h (hfile _ _ hg).1 (hfile _ _ hg).2
        generalize rename k u sf (r.dst.down rel) g = x at hcall ⊢
        generalize rename k v sf (r.dst.down rel) g = y at hcall ⊢
        cases hcall with
        | ok hsame => exact .some hsame _
        | error e =>
            dsimp only
            split
            · exact .some h _
            · exact .some h _
  | copy task =>
      simp only [Runner.work]
      split
      · exact .none
      · rename_i sf rel hg
        rw [target_path_eq, copy_file_at_same h (hfile _ _ hg).1 (hfile _ _ hg).2]
        generalize f.copy_file_at k u sf .none (r.dst.down rel) (r.target_tail rel) = g
        have hcall := copy_file_alike (f := g) h (hfile _ _ hg).1 (hfile _ _ hg).2
        generalize copy_file k u sf (r.dst.down rel) g = x at hcall ⊢
        generalize copy_file k v sf (r.dst.down rel) g = y at hcall ⊢
        obtain ⟨u₁, x⟩ := x
        obtain ⟨v₁, y⟩ := y
        obtain ⟨hsame, rfl⟩ := hcall
        cases y with
        | error e => exact .some hsame _
        | ok m =>
            dsimp only
            split
            · exact .some hsame _
            · exact .some hsame _
  | remove task =>
      simp only [Runner.work]
      split
      · exact .none
      · rename_i sf rel hg
        have hcall := remove_file_alike (f := f) h (hfile _ _ hg).1
        generalize remove_file k u sf f = x at hcall ⊢
        generalize remove_file k v sf f = y at hcall ⊢
        cases hcall with
        | ok hsame => exact .some hsame _
        | error e => exact .some h _
  | fail task err => exact .some h _
  | note task err =>
      simp only [Runner.work]
      split
      · exact .none
      · exact .some h _
  | report task ok => exact .some h _
  | stopped => exact .none

theorem run_same {r : Runner} {e : Event} (hs : Sited k V W u ⟨r.op, r.src, r.dst⟩ S D)
    (hl : (Machine.run r).Proper) (h : Same V u v) (ho : (Machine.run r).Early → SameOrder V u v) :
    Abreast V (r.step k u e) (r.step k v e) := by
  cases e with
  | walk fuel =>
      simp only [Runner.step]
      split
      · rename_i hp
        have hwalk : walk_files k v fuel r.src = walk_files k u fuel r.src := by
          unfold walk_files
          -- before the walk the names of each directory come in the same order as well
          rw [walk_same h (ho (.inr hp)) hs.src fuel []]
        rw [hwalk, walk_from_same (p := r.src) h hs.src]
        split
        · exact .none
        · exact .some h _
        · exact .some h _
      · exact .none
  | main f =>
      simp only [Runner.step]
      split
      · exact .some h _
      · split
        · exact .some h _
        · exact .none
      · rw [exists_same h (hs.dst.seen.tailed _)]
        split
        · exact .some h _
        · exact .some h _
      · rw [rename_at_same h hs.src hs.dst]
        generalize f.rename_at k u r.src r.src_tail r.dst r.dst_tail = g
        have hcall := rename_alike (f := g) h hs.src hs.dst
        generalize rename k u r.src r.dst g = x at hcall ⊢
        generalize rename k v r.src r.dst g = y at hcall ⊢
        cases hcall with
        | ok hsame => exact .some hsame _
        | error e => exact .some h _
      · rename_i l n hp
        split
        · exact .some h _
        · rename_i rel hn
          rw [target_path_eq, create_dir_all_at_same h (hs.dst.down rel)]
          generalize f.create_dir_all_at k u (r.dst.down rel) (r.target_tail rel) = g
          have hcall := create_dir_all_alike (f := g) h (hs.dst.down rel)
          generalize create_dir_all k u (r.dst.down rel) g = x at hcall ⊢
          generalize create_dir_all k v (r.dst.down rel) g = y at hcall ⊢
          obtain ⟨u₁, x⟩ := x
          obtain ⟨v₁, y⟩ := y
          -- it may have made some of the directories and then failed, the same ones in both
          obtain ⟨hsame, rfl⟩ := hcall
          exact .some hsame _
      · split
        · exact .some h _
        · exact .none
      · split
        · exact .some (remove_dir_all_at_alike h hs.src) _
        · exact .some h _
      · exact .some h _
      · exact .none
  | worker i f =>
      simp only [Runner.step]
      split
      · rename_i l ws next failed hp
        split
        · exact .none
        · rename_i w hw
          rw [Machine.Proper, hp] at hl
          exact (work_same_ground hs hl.1 h).map
            fun x => { r with phase := .working l (ws.set i x.2.2.2) x.2.1 x.2.2.1, job := x.1 }
      · exact .none

theorem remover_same {d : Deleter} {r : Removals} {next failed : Nat} {f : Fault} {w : Remover}
    (hs : Rooted k V u d.src S) (hl : RemovalsBelow d.src r) (h : Same V u v) :
    Abreast V (Deleter.work k u d r next failed f w) (Deleter.work k v d r next failed f w) := by
  cases w with
  | idle =>
      simp only [Deleter.work]
      split
      · exact .some h _
      · exact .some h _
  | announce idx =>
      simp only [Deleter.work]
      split
      · exact .none
      · exact .some h _
  | remove idx =>
      simp only [Deleter.work]
      split
      · exact .none
      · rename_i p hg
        obtain ⟨s, rfl⟩ := hl.1 p (List.mem_of_getElem? hg)
        have hcall := remove_file_alike (f := f) h (hs.down s)
        generalize remove_file k u (d.src.down s) f = x at hcall ⊢
        generalize remove_file k v (d.src.down s) f = y at hcall ⊢
        cases hcall with
        | ok hsame => exact .some hsame _
        | error e => exact .some h _
  | count idx => exact .some h _
  | fail idx e => exact .some h _
  | note idx e =>
      simp only [Deleter.work]
      split
      · exact .none
      · exact .some h _
  | stopped => exact .none

theorem erase_same_ground {d : Deleter} {e : Event} (hs : Rooted k V u d.src S)
    (hl : (Machine.erase d).Proper) (h : Same V u v)
    (ho : (Machine.erase d).Early → SameOrder V u v) :
    Abreast V (d.step k u e) (d.step k v e) := by
  cases e with
  | walk fuel =>
      simp only [Deleter.step]
      split
      · rename_i hp
        have hwalk : walk_delete k v fuel d.src = walk_delete k u fuel d.src := by
          unfold walk_delete
          -- before the walk the names of each directory come in the same order as well
          rw [walk_same h (ho (.inr (.inr hp))) hs fuel []]
        rw [hwalk, walk_from_same h hs]
        split
        · exact .none
        · exact .some h _
        · exact .some h _
      · exact .none
  | main f =>
      simp only [Deleter.step]
      split
      · exact .some h _
      · rw [is_file_same h (hs.seen.tailed _), is_symlink_same h (hs.seen.tailed _)]
        split
        · exact .some h _
        · exact .some h _
      · rw [remove_file_at_same h hs]
        generalize f.remove_file_at k u d.src d.src_tail = g
        have hcall := remove_file_alike (f := g) h hs
        generalize remove_file k u d.src g = x at hcall ⊢
        generalize remove_file k v d.src g = y at hcall ⊢
        cases hcall with
        | ok hsame => exact .some hsame _
        | error e => exact .some h _
      · split
        · exact .some h _
        · exact .none
      · split
        · exact .some h _
        · exact .none
      · exact .some h _
      · split
        · exact .none
        · exact .some h _
      · rename_i r n failed hp
        split
        · exact .none
        · rename_i p hn
          rw [Machine.Proper, hp] at hl
          -- a directory on the list is below `src`, so both trees agree on it
          obtain ⟨s, rfl⟩ := hl.2 p (List.mem_of_getElem? hn)
          rw [remove_dir_at_same h (hs.down s)]
          generalize f.remove_dir_at k u (d.src.down s) (d.dir_tail n) = g
          have hcall := remove_dir_alike (f := g) h (hs.down s)
          generalize remove_dir k u (d.src.down s) g = x at hcall ⊢
          generalize remove_dir k v (d.src.down s) g = y at hcall ⊢
          cases hcall with
          | ok hsame => exact .some hsame _
          | error e => exact .some h _
      · exact .none
  | worker i f =>
      simp only [Deleter.step]
      split
      · rename_i r ws next failed hp
        split
        · exact .none
        · rename_i w hw
          rw [Machine.Proper, hp] at hl
          exact (remover_same hs hl h).map
            fun x => { d with phase := .working r (ws.set i x.2.2.2) x.2.1 x.2.2.1, job := x.1 }
      · exact .none

/-- **On trees that are the same on its ground, a job takes the same step**, as long as
the tree it has yet to walk is read in the same order. -/
theorem Machine.step_same {m : Machine} {e : Event} (hs : Sited k V W u m.errand S D)
    (hl : m.Proper) (h : Same V u v) (ho : m.Early → SameOrder V u v) :
    Abreast V (m.step k u e) (m.step k v e) := by
  cases m with
  | run r => exact (run_same hs hl h ho).map Machine.run
  | erase d => exact (erase_same_ground hs.src hl h ho).map Machine.erase

/-! ## Steps that stay on the ground -/

theorem work_within {r : Runner} {l : Listing} {next failed : Nat} {f : Fault} {w : Worker}
    {x : FileTree Bytes × Job × Nat × Nat × Worker}
    (hs : Sited k V W u ⟨r.op, r.src, r.dst⟩ S D) (hl : ListedBelow r.src l)
    (hw : w.Allowed r.op) (h : Runner.WorkCase k u r l next failed f w x) :
    Within W u x.1 ∧ x.2.2.2.2.Allowed r.op := by
  have hsrc : ∀ (i : Nat) g, l.files[i]? = some g → Rooted k V u g.1 (S ++ g.2) := by
    intro i g hg
    rw [hl g (List.mem_of_getElem? hg)]
    exact hs.src.down g.2
  -- a move may change what is below its source, and a copy may not
  have hoff : r.op = .move → ∀ s r', W (S ++ s ++ r') := by
    intro hop s r'
    rw [List.append_assoc]
    apply hs.off
    simp [hop]
  have hinto : ∀ s r', W (D ++ s ++ r') := by
    intro s r'
    rw [List.append_assoc]
    exact hs.into _
  have hstay : ∀ w' : Worker, w'.Allowed r.op → Within W u u ∧ w'.Allowed r.op :=
    fun w' h => ⟨Within.refl W u, h⟩
  have hcopied : ∀ sf rel, Within W u (copy_file k u sf (r.dst.down rel)
      (f.copy_file_at k u sf .none (r.dst.down rel) (r.target_tail rel))).1 := fun sf rel =>
    copy_file_within (p := sf) (hs.dst.down rel) (by simpa using hinto rel [])
  cases h with
  -- reading the size and showing the file touches nothing
  | announced task sf rel hg =>
      apply hstay
      unfold Runner.first
      split
      · rename_i hc
        exact hc.1
      · trivial
  | renamed task sf rel t' hg hr =>
      exact ⟨Kernel.rename_within (hsrc _ _ hg) (hs.dst.down rel) (hoff hw rel) (hinto rel) hr,
        trivial⟩
  | unrenamed task sf rel e hg hr =>
      apply hstay
      split
      · trivial
      · trivial
  | copied task sf rel t' m hg hc =>
      have hcopy := hcopied sf rel
      rw [hc] at hcopy
      refine ⟨hcopy, ?_⟩
      dsimp only
      split
      · assumption
      · trivial
  | uncopied task sf rel t' e hg hc =>
      have hcopy := hcopied sf rel
      rw [hc] at hcopy
      exact ⟨hcopy, trivial⟩
  | removed task sf rel t' hg hr =>
      exact ⟨Kernel.remove_file_within (hsrc _ _ hg) (hoff hw rel) hr, trivial⟩
  | _ => exact hstay _ trivial

theorem run_within {r r' : Runner} {e : Event} (hs : Sited k V W u ⟨r.op, r.src, r.dst⟩ S D)
    (hp : (Machine.run r).Proper) (h : r.step k u e = some (u', r')) :
    Within W u u' ∧ (Machine.run r').Proper ∧ (Machine.run r').errand = (Machine.run r).errand ∧
      ((Machine.run r').Early → (Machine.run r).Early ∧ u' = u) := by
  have hproper : ∀ ph, r.phase = ph → ph.Proper r.op r.src := fun ph he => he ▸ hp
  -- past the walk nothing is said of the early phases
  have hlate : ∀ {ph : Phase} {j : Job}, ph ≠ .queued → ph ≠ .walking →
      (Machine.run { r with phase := ph, job := j }).Early → (Machine.run r).Early ∧ u' = u := by
    rintro ph j hq hw (he | he)
    · exact absurd he hq
    · exact absurd he hw
  cases Runner.step_cases h with
  | started f hph => exact ⟨Within.refl W u, trivial, rfl, fun _ => ⟨.inl hph, rfl⟩⟩
  | unwalked ev e' hph => exact ⟨Within.refl W u, trivial, rfl, hlate (by simp) (by simp)⟩
  | walked fuel l hph hw =>
      exact ⟨Within.refl W u, walk_paths hw, rfl, hlate (by simp) (by simp)⟩
  | checked_fast f l hph hop hsame hx =>
      exact ⟨Within.refl W u, ⟨hproper _ hph, hop⟩, rfl, hlate (by simp) (by simp)⟩
  | checked_slow f l hph =>
      exact ⟨Within.refl W u, hproper _ hph, rfl, hlate (by simp) (by simp)⟩
  | renamed_tree f l t' hph hr =>
      -- only a move comes to the rename of the whole tree, and a move may take its source
      -- away
      have hop : r.op = .move := (hproper _ hph).2
      refine ⟨Kernel.rename_within hs.src hs.dst (hs.off ?_) hs.into hr, trivial, rfl,
        hlate (by simp) (by simp)⟩
      simp [hop]
  | unrenamed_tree f l hph =>
      exact ⟨Within.refl W u, (hproper _ hph).1, rfl, hlate (by simp) (by simp)⟩
  | made f l n rel hph hn =>
      exact ⟨create_dir_all_within (hs.target_ways rel), hproper _ hph, rfl,
        hlate (by simp) (by simp)⟩
  | spawned f l n hph hn =>
      refine ⟨Within.refl W u, ⟨hproper _ hph, fun w hw => ?_⟩, rfl, hlate (by simp) (by simp)⟩
      rw [List.eq_of_mem_replicate hw]
      trivial
  | worked i f l ws next failed w x hph hw hx =>
      obtain ⟨hl, hall⟩ := hproper _ hph
      obtain ⟨hin, hnext⟩ := work_within hs hl (hall w (List.mem_of_getElem? hw)) hx
      refine ⟨hin, ⟨hl, fun y hy => ?_⟩, rfl, hlate (by simp) (by simp)⟩
      rcases List.mem_or_eq_of_mem_set hy with hy | rfl
      · exact hall y hy
      · exact hnext
  | joined f l ws next failed hph hws =>
      exact ⟨Within.refl W u, (hproper _ hph).1, rfl, hlate (by simp) (by simp)⟩
  | cleaned f l hph hop =>
      refine ⟨remove_dir_all_at_within hs.src (hs.off ?_), trivial, rfl, hlate (by simp) (by simp)⟩
      simp [hop]
  | kept f l failed hph hc => exact ⟨Within.refl W u, trivial, rfl, hlate (by simp) (by simp)⟩
  | ended f hph => exact ⟨Within.refl W u, trivial, rfl, hlate (by simp) (by simp)⟩

theorem erase_within_ground {d d' : Deleter} {e : Event} (hs : Rooted k V u d.src S)
    (hoff : ∀ r, W (S ++ r)) (hp : (Machine.erase d).Proper)
    (h : d.step k u e = some (u', d')) :
    Within W u u' ∧ (Machine.erase d').Proper ∧
      (Machine.erase d').errand = (Machine.erase d).errand ∧
      ((Machine.erase d').Early → (Machine.erase d).Early ∧ u' = u) := by
  have hproper : ∀ ph, d.phase = ph → ph.Proper d.src := fun ph he => he ▸ hp
  have hbelow : ∀ s r', W (S ++ s ++ r') := by
    intro s r'
    rw [List.append_assoc]
    exact hoff _
  -- past the walk nothing is said of the early phases
  have hlate : ∀ {ph : Clearing} {j : Job}, ph ≠ .queued → ph ≠ .checking → ph ≠ .walking →
      (Machine.erase { d with phase := ph, job := j }).Early → (Machine.erase d).Early ∧ u' = u := by
    rintro ph j hq hc hw (he | he | he)
    · exact absurd he hq
    · exact absurd he hc
    · exact absurd he hw
  cases Deleter.step_cases h with
  | started f hph => exact ⟨Within.refl W u, trivial, rfl, fun _ => ⟨.inl hph, rfl⟩⟩
  | single f hph hx =>
      exact ⟨Within.refl W u, trivial, rfl, hlate (by simp) (by simp) (by simp)⟩
  | many f hph hx => exact ⟨Within.refl W u, trivial, rfl, fun _ => ⟨.inr (.inl hph), rfl⟩⟩
  | removed f t' hph hr =>
      exact ⟨remove_file_within hs hoff hr, trivial, rfl, hlate (by simp) (by simp) (by simp)⟩
  | unremoved f e' hph hr =>
      exact ⟨Within.refl W u, trivial, rfl, hlate (by simp) (by simp) (by simp)⟩
  | walked fuel r hph hw =>
      exact ⟨Within.refl W u, walk_delete_paths hw, rfl, hlate (by simp) (by simp) (by simp)⟩
  | unwalked fuel e' hph hw =>
      exact ⟨Within.refl W u, trivial, rfl, hlate (by simp) (by simp) (by simp)⟩
  | hindered f e' hph hf =>
      exact ⟨Within.refl W u, trivial, rfl, hlate (by simp) (by simp) (by simp)⟩
  | worked i f r ws next failed w x hph hw hx =>
      refine ⟨?_, hproper _ hph, rfl, hlate (by simp) (by simp) (by simp)⟩
      cases hx with
      | removed idx p t' hg hr =>
          -- what is removed was listed, so it is below `src`
          obtain ⟨s, rfl⟩ := (hproper _ hph).1 p (List.mem_of_getElem? hg)
          exact remove_file_within (hs.down s) (hbelow s) hr
      | _ => exact Within.refl W u
  | joined f r ws next failed hph hws =>
      exact ⟨Within.refl W u, hproper _ hph, rfl, hlate (by simp) (by simp) (by simp)⟩
  | announced f r n failed p hph hn =>
      exact ⟨Within.refl W u, hproper _ hph, rfl, hlate (by simp) (by simp) (by simp)⟩
  | cleared f r n failed p t' hph hn hr =>
      obtain ⟨s, rfl⟩ := (hproper _ hph).2 p (List.mem_of_getElem? hn)
      exact ⟨remove_dir_within (hs.down s) (hbelow s) hr, hproper _ hph, rfl,
        hlate (by simp) (by simp) (by simp)⟩
  | uncleared f r n failed p e' hph hn hr =>
      exact ⟨Within.refl W u, hproper _ hph, rfl, hlate (by simp) (by simp) (by simp)⟩
  | ended f r failed hph =>
      exact ⟨Within.refl W u, trivial, rfl, hlate (by simp) (by simp) (by simp)⟩

/-- **A step of a job changes nothing off its ground.** It keeps the job's errand, and
until the walk it changes nothing at all. -/
theorem Machine.step_within {m m' : Machine} {e : Event} (hs : Sited k V W u m.errand S D)
    (hp : m.Proper) (h : m.step k u e = some (u', m')) :
    Within W u u' ∧ m'.Proper ∧ m'.errand = m.errand ∧ (m'.Early → m.Early ∧ u' = u) := by
  cases m with
  | run r =>
      obtain ⟨x, hx, hm⟩ := Option.map_eq_some_iff.mp h
      cases hm
      exact run_within hs hp hx
  | erase d =>
      obtain ⟨x, hx, hm⟩ := Option.map_eq_some_iff.mp h
      cases hm
      exact erase_within_ground hs.src (hs.off (by simp [Machine.errand])) hp hx

end

end WebDavs.Mover
