/-
The walks as the source writes them.

`walk_files` and `walk_delete` hand three accumulators from call to call, and the
entries of a directory come in the order `read_dir` gives them. `walk_into` is that
recursion for any accumulators, and `walk_into_spec` says what it comes to: the
accumulators after one visit of everything that is reached, a directory before
what is in it. Everything the listings are used for is read off the visits. Where
no way comes back to a directory it has been in, the walks end (`walk_into_ends`).
-/
import WebDavs.Walk
import WebDavs.Ways

set_option autoImplicit false

namespace WebDavs.Mover

open WebDavs.Posix WebDavs.Posix.FileTree WebDavs.Ways

/-! ## Reading directories -/

/-- In which order the names of a directory come, each time that it is read. -/
structure Order where
  of : Path → List String → List String
  perm : ∀ p ns, (of p ns).Perm ns

/-- The names in the directory that `p` leads to, if it leads to one. -/
def names_in (k : Kernel) (t : FileTree Bytes) (p : Path) : Option (List String) :=
  match k.stat t p with
  | some l => if t.get l = some .dir then some (t.children l) else none
  | none => none

theorem names_in_eq_some {k : Kernel} {t : FileTree Bytes} {p : Path} {ns : List String} :
    names_in k t p = some ns ↔
      ∃ l, k.stat t p = some l ∧ t.get l = some .dir ∧ ns = t.children l := by
  unfold names_in
  cases hs : k.stat t p with
  | none => simp
  | some l =>
      by_cases hl : t.get l = some .dir
      · simp [hl, eq_comm]
      · simp [hl]

theorem names_in_eq_none {k : Kernel} {t : FileTree Bytes} {p : Path} :
    names_in k t p = none ↔ k.is_dir t p = false := by
  unfold names_in Kernel.is_dir
  cases hs : k.stat t p with
  | none => simp
  | some l =>
      by_cases hl : t.get l = some .dir
      · simp [hl]
      · simp [hl]

/-! ## The recursion -/

section

variable {A : Type}

/-- One call after the other, each with the accumulators of the one before; the
first error ends it. -/
def hand_on (call : String → A → Option (Except Errno A)) :
    List String → A → Option (Except Errno A)
  | [], acc => some (.ok acc)
  | n :: ns, acc =>
    match call n acc with
    | none => none
    | some (.error e) => some (.error e)
    | some (.ok acc) => hand_on call ns acc

/-- The recursion of the walks, with what they do to their accumulators at a
directory and at anything else. -/
def walk_into (k : Kernel) (t : FileTree Bytes) (o : Order) (dir : Path → List String → A → A)
    (leaf : Path → List String → Entry Bytes → A → A) :
    Nat → Path → List String → A → Option (Except Errno A)
  | 0, _, _, _ => none
  | fuel + 1, src, rel, acc =>
    match names_in k t src with
    | some ns =>
      hand_on (fun n => walk_into k t o dir leaf fuel (src.child n) (rel ++ [n])) (o.of src ns)
        (dir src rel acc)
    | none =>
      match k.lstat t src with
      | some e => some (.ok (leaf src rel e acc))
      | none => some (.error (k.why t src))

end

/-- The accumulators of `walk_files`. -/
structure Files where
  files : List (Path × List String)
  dirs : List (List String)
  bytes : UInt64

/-- `walk_files`, from empty accumulators. -/
def walk_files_by (k : Kernel) (t : FileTree Bytes) (o : Order) (fuel : Nat) (src : Path) :
    Option (Except Errno Files) :=
  walk_into k t o
    (fun _ rel f => { f with dirs := f.dirs ++ [rel] })
    (fun src rel e f =>
      { f with bytes := f.bytes + UInt64.ofNat (size e), files := f.files ++ [(src, rel)] })
    fuel src [] ⟨[], [], 0⟩

/-- The accumulators of `walk_delete`. -/
structure Deletions where
  files : List Path
  dirs : List Path
  bytes : UInt64

/-- What `walk_delete` counts of an entry: nothing of a link. -/
def removal_size : Entry Bytes → Nat
  | .symlink _ => 0
  | e => size e

/-- `walk_delete`, from empty accumulators. The relative paths are not in the
source and nothing depends on them. -/
def walk_delete_by (k : Kernel) (t : FileTree Bytes) (o : Order) (fuel : Nat) (src : Path) :
    Option (Except Errno Deletions) :=
  walk_into k t o
    (fun src _ f => { f with dirs := f.dirs ++ [src] })
    (fun src _ e f =>
      { f with bytes := f.bytes + UInt64.ofNat (removal_size e), files := f.files ++ [src] })
    fuel src [] ⟨[], [], 0⟩

/-! ## What is reached -/

/-- Something is at `p`. -/
def Present (k : Kernel) (t : FileTree Bytes) (p : Path) : Prop :=
  k.is_dir t p = true ∨ (k.lstat t p).isSome = true

/-- The relative paths that are reached from `src`: its own, and with a path that
leads to a directory those of all the names in it. -/
inductive Reached (k : Kernel) (t : FileTree Bytes) (src : Path) : List String → Prop
  | root (h : Present k t src) : Reached k t src []
  | child {rel : List String} {ns : List String} {n : String} (h : Reached k t src rel)
      (hns : names_in k t (src.down rel) = some ns) (hn : n ∈ ns) : Reached k t src (rel ++ [n])

/-- A name in a directory is there. -/
theorem present_child {k : Kernel} {t : FileTree Bytes} {p : Path} {ns : List String} {n : String}
    (hns : names_in k t p = some ns) (hn : n ∈ ns) : Present k t (p.child n) := by
  obtain ⟨l, hs, hl, rfl⟩ := names_in_eq_some.mp hns
  rw [mem_children] at hn
  refine .inr ?_
  rw [Kernel.lstat_child, Kernel.slot_child_eq_some.mpr ⟨hs, hl, rfl⟩]
  exact hn

/-- What is reached through the first name. -/
theorem reached_cons {k : Kernel} {t : FileTree Bytes} {src : Path} {n : String} {rel : List String} :
    Reached k t src (n :: rel) ↔
      ∃ ns, names_in k t src = some ns ∧ n ∈ ns ∧ Reached k t (src.child n) rel := by
  constructor
  · intro h
    generalize hw : n :: rel = way at h
    induction h generalizing rel with
    | root _ => cases hw
    | @child rel' ns m h hns hm ih =>
        rcases List.eq_nil_or_concat rel with rfl | ⟨r, m', rfl⟩
        · have hw' : [] ++ [n] = rel' ++ [m] := hw
          obtain ⟨rfl, hsingle⟩ := List.append_inj' hw' rfl
          cases hsingle
          rw [Path.down_nil] at hns
          exact ⟨ns, hns, hm, .root (present_child hns hm)⟩
        · rw [List.concat_eq_append, ← List.cons_append] at hw
          obtain ⟨rfl, hsingle⟩ := List.append_inj' hw rfl
          cases hsingle
          obtain ⟨ns', hns', hn', hr⟩ := ih rfl
          rw [List.concat_eq_append]
          rw [← Path.child_down] at hns
          exact ⟨ns', hns', hn', .child hr hns hm⟩
  · rintro ⟨ns, hns, hn, h⟩
    have hsrc : Present k t src := by
      obtain ⟨l, hs, hl, -⟩ := names_in_eq_some.mp hns
      exact .inl (Kernel.is_dir_iff.mpr ⟨l, hs, hl⟩)
    induction h with
    | root _ =>
        have hfirst := Reached.child (.root hsrc) (by rwa [Path.down_nil]) hn
        exact hfirst
    | child h hns' hm ih =>
        rw [← List.cons_append]
        rw [Path.child_down] at hns'
        exact .child ih hns' hm

/-- Where a path leads to no directory, nothing else is reached from it. -/
theorem reached_leaf {k : Kernel} {t : FileTree Bytes} {src : Path} {rel : List String}
    (hnone : names_in k t src = none) (h : Reached k t src rel) : rel = [] := by
  cases rel with
  | nil => rfl
  | cons n rel =>
      obtain ⟨ns, hns, -⟩ := reached_cons.mp h
      rw [hnone] at hns
      cases hns

/-! ## The visits -/

/-- What a visit does to the accumulators. -/
def enter {A : Type} (dir : Path → List String → A → A)
    (leaf : Path → List String → Entry Bytes → A → A) (acc : A) (v : Visit) : A :=
  match v.leaf with
  | none => dir v.path v.rel acc
  | some e => leaf v.path v.rel e acc

/-- What is written down at `p`: nothing for a directory, else the entry. -/
def leaf_at (k : Kernel) (t : FileTree Bytes) (p : Path) : Option (Entry Bytes) :=
  if k.is_dir t p = true then none else k.lstat t p

/-- The visits of a walk from `src`, under relative paths from `rel`: all that is
reached and nothing else, once, and a directory before what is in it. -/
structure Meets (k : Kernel) (t : FileTree Bytes) (src : Path) (rel : List String)
    (vs : List Visit) : Prop where
  sound : ∀ v ∈ vs, ∃ s, Reached k t src s ∧ v.path = src.down s ∧ v.rel = rel ++ s ∧
    v.leaf = leaf_at k t v.path
  complete : ∀ s, Reached k t src s → ∃ v ∈ vs, v.rel = rel ++ s
  ordered : vs.Pairwise fun v w => ¬ w.rel <+: v.rel

/-- A directory, and then the walks of the names in it. -/
theorem Meets.dir {k : Kernel} {t : FileTree Bytes} {src : Path} {rel ns ns' : List String}
    {g : String → List Visit} (hns : names_in k t src = some ns) (hperm : ns'.Perm ns)
    (hg : ∀ n ∈ ns', Meets k t (src.child n) (rel ++ [n]) (g n)) :
    Meets k t src rel (⟨src, rel, none⟩ :: ns'.flatMap g) := by
  obtain ⟨l, hs, hl, rfl⟩ := names_in_eq_some.mp hns
  have hd : k.is_dir t src = true := Kernel.is_dir_iff.mpr ⟨l, hs, hl⟩
  have hrel : ∀ n ∈ ns', ∀ v ∈ g n, ∃ s, v.rel = rel ++ n :: s := by
    intro n hn v hv
    obtain ⟨s, -, -, hr, -⟩ := (hg n hn).sound v hv
    exact ⟨s, by rw [hr, List.append_assoc, List.singleton_append]⟩
  refine ⟨?_, ?_, ?_⟩
  -- sound: the directory itself, or a visit of a name in it
  · intro v hv
    rcases List.mem_cons.mp hv with rfl | hv
    · exact ⟨[], .root (.inl hd), by simp, by simp, by simp [leaf_at, hd]⟩
    · obtain ⟨n, hn, hv⟩ := List.mem_flatMap.mp hv
      obtain ⟨s, hs, hp, hr, hleaf⟩ := (hg n hn).sound v hv
      refine ⟨n :: s, reached_cons.mpr ⟨_, hns, hperm.mem_iff.mp hn, hs⟩, ?_, ?_, hleaf⟩
      · rw [hp, Path.child_down]
      · rw [hr, List.append_assoc, List.singleton_append]
  -- complete: by the first name of what is reached
  · intro s hs
    cases s with
    | nil => exact ⟨_, List.mem_cons_self, by simp⟩
    | cons n s =>
        obtain ⟨ns, hns', hn, hs⟩ := reached_cons.mp hs
        rw [hns] at hns'
        cases hns'
        have hn' := hperm.mem_iff.mpr hn
        obtain ⟨v, hv, hr⟩ := (hg n hn').complete s hs
        refine ⟨v, List.mem_cons_of_mem _ (List.mem_flatMap.mpr ⟨n, hn', hv⟩), ?_⟩
        rw [hr, List.append_assoc, List.singleton_append]
  · refine List.pairwise_cons.mpr ⟨?_, List.pairwise_flatMap.mpr ⟨?_, ?_⟩⟩
    -- the directory comes before what is in it
    · intro w hw
      obtain ⟨n, hn, hw⟩ := List.mem_flatMap.mp hw
      obtain ⟨s, hs⟩ := hrel n hn w hw
      rw [hs]
      intro hpre
      have hlen := hpre.length_le
      simp only [List.length_append, List.length_cons] at hlen
      omega
    · exact fun n hn => (hg n hn).ordered
    · -- what lies under two names of one directory
      have hnodup : ns'.Nodup := hperm.nodup_iff.mpr (t.nodup_children l)
      refine hnodup.imp_of_mem ?_
      intro n m hn hm hne v hv w hw
      obtain ⟨s, hs⟩ := hrel n hn v hv
      obtain ⟨s', hs'⟩ := hrel m hm w hw
      rw [hs, hs', List.prefix_append_right_inj]
      intro hpre
      exact hne (List.cons_prefix_cons.mp hpre).1.symm

theorem Meets.leaf {k : Kernel} {t : FileTree Bytes} {src : Path} {rel : List String}
    {e : Entry Bytes} (hnone : names_in k t src = none) (he : k.lstat t src = some e) :
    Meets k t src rel [⟨src, rel, some e⟩] := by
  have hd := names_in_eq_none.mp hnone
  have hthere : Present k t src := .inr (by rw [he, Option.isSome_some])
  refine ⟨?_, ?_, List.pairwise_singleton _ _⟩
  · intro v hv
    rw [List.mem_singleton] at hv
    subst hv
    exact ⟨[], .root hthere, by simp, by simp, by simp [leaf_at, hd, he]⟩
  · intro s hs
    rw [reached_leaf hnone hs]
    exact ⟨_, List.mem_singleton_self _, by simp⟩

section

variable {A : Type} {k : Kernel} {t : FileTree Bytes} {o : Order}
variable {dir : Path → List String → A → A} {leaf : Path → List String → Entry Bytes → A → A}

/-- Calls that each come to some visits come to the visits of all. -/
theorem hand_on_visits {call : String → A → Option (Except Errno A)}
    {P : String → List Visit → Prop} {ns : List String} {acc : A} {r : Except Errno A}
    (hnodup : ns.Nodup)
    (hcall : ∀ n ∈ ns, ∀ acc r, call n acc = some r →
      ∃ vs, P n vs ∧ r = .ok (vs.foldl (enter dir leaf) acc))
    (h : hand_on call ns acc = some r) :
    ∃ g : String → List Visit, (∀ n ∈ ns, P n (g n)) ∧
      r = .ok ((ns.flatMap g).foldl (enter dir leaf) acc) := by
  induction ns generalizing acc with
  | nil =>
      cases h
      exact ⟨fun _ => [], by simp, rfl⟩
  | cons n ns ih =>
      obtain ⟨hfresh, hrest⟩ := List.nodup_cons.mp hnodup
      rw [hand_on] at h
      cases hn : call n acc with
      | none =>
          rw [hn] at h
          cases h
      | some r' =>
          obtain ⟨vs, hvs, rfl⟩ := hcall n List.mem_cons_self acc r' hn
          rw [hn] at h
          obtain ⟨g, hg, rfl⟩ := ih hrest (fun m hm => hcall m (List.mem_cons_of_mem _ hm)) h
          refine ⟨fun m => if m = n then vs else g m, ?_, ?_⟩
          · intro m hm
            by_cases hmn : m = n
            · simp only [hmn]
              exact hvs
            · simp only [if_neg hmn]
              exact hg m ((List.mem_cons.mp hm).resolve_left hmn)
          · have hflat : ns.flatMap (fun m => if m = n then vs else g m) = ns.flatMap g := by
              refine List.flatMap_congr ?_
              intro m hm
              have hmn : m ≠ n := by
                rintro rfl
                exact hfresh hm
              rw [if_neg hmn]
            rw [List.flatMap_cons, List.foldl_append, hflat, if_pos rfl]

/-- **What a walk comes to**: the accumulators after the visits. -/
theorem walk_into_spec {fuel : Nat} {src : Path} {rel : List String} {acc : A}
    {r : Except Errno A} (hthere : Present k t src)
    (h : walk_into k t o dir leaf fuel src rel acc = some r) :
    ∃ vs, Meets k t src rel vs ∧ r = .ok (vs.foldl (enter dir leaf) acc) := by
  induction fuel generalizing src rel acc r with
  | zero => cases h
  | succ fuel ih =>
      rw [walk_into] at h
      cases hns : names_in k t src with
      | some ns =>
          rw [hns] at h
          have hperm := o.perm src ns
          have hnodup : (o.of src ns).Nodup := by
            obtain ⟨l, -, -, rfl⟩ := names_in_eq_some.mp hns
            exact hperm.nodup_iff.mpr (t.nodup_children l)
          obtain ⟨g, hg, rfl⟩ := hand_on_visits (P := fun n => Meets k t (src.child n) (rel ++ [n]))
            hnodup (fun n hn acc r hr => ih (present_child hns (hperm.mem_iff.mp hn)) hr) h
          exact ⟨_, Meets.dir hns hperm hg, rfl⟩
      | none =>
          rw [hns] at h
          cases he : k.lstat t src with
          | some e =>
              rw [he] at h
              cases h
              exact ⟨_, Meets.leaf hns he, rfl⟩
          | none =>
              -- nothing there
              rcases hthere with hd | hsome
              · rw [names_in_eq_none.mp hns] at hd
                cases hd
              · rw [he] at hsome
                cases hsome

/-! ## Termination -/

theorem hand_on_ends {call : String → A → Option (Except Errno A)} {ns : List String} {acc : A}
    (h : ∀ n ∈ ns, ∀ acc, call n acc ≠ none) : hand_on call ns acc ≠ none := by
  induction ns generalizing acc with
  | nil => simp [hand_on]
  | cons n ns ih =>
      rw [hand_on]
      match hn : call n acc with
      | none => exact absurd hn (h n List.mem_cons_self acc)
      | some (.error e) => simp
      | some (.ok acc) => exact ih fun m hm => h m (List.mem_cons_of_mem _ hm)

/-- **Fuel for the longest way** is enough. -/
theorem walk_into_ends {fuel : Nat} {src : Path} {rel : List String} {acc : A} (hpos : 0 < fuel)
    (h : ∀ s, k.is_dir t (src.down s) = true → s.length + 1 < fuel) :
    walk_into k t o dir leaf fuel src rel acc ≠ none := by
  induction fuel generalizing src rel acc with
  | zero => omega
  | succ fuel ih =>
      rw [walk_into]
      cases hns : names_in k t src with
      | some ns =>
          have hd : k.is_dir t src = true := by
            obtain ⟨l, hs, hl, -⟩ := names_in_eq_some.mp hns
            exact Kernel.is_dir_iff.mpr ⟨l, hs, hl⟩
          have hfuel := h [] (by rwa [Path.down_nil])
          rw [List.length_nil] at hfuel
          refine hand_on_ends ?_
          intro n _ acc
          refine ih (by omega) ?_
          intro s hs
          have hlen := h (n :: s) (by rwa [← Path.child_down])
          rw [List.length_cons] at hlen
          omega
      | none =>
          cases k.lstat t src with
          | some e => simp
          | none => simp

theorem hand_on_mono {call call' : String → A → Option (Except Errno A)}
    (h : ∀ n acc r, call n acc = some r → call' n acc = some r) {ns : List String} {acc : A}
    {r : Except Errno A} (hr : hand_on call ns acc = some r) : hand_on call' ns acc = some r := by
  induction ns generalizing acc with
  | nil => exact hr
  | cons n ns ih =>
      rw [hand_on] at hr ⊢
      cases hn : call n acc with
      | none =>
          rw [hn] at hr
          cases hr
      | some r' =>
          rw [hn] at hr
          rw [h n acc r' hn]
          cases r' with
          | error e => exact hr
          | ok acc => exact ih hr

/-- More fuel changes nothing. -/
theorem walk_into_mono {fuel i : Nat} {src : Path} {rel : List String} {acc : A}
    {r : Except Errno A} (h : walk_into k t o dir leaf fuel src rel acc = some r) :
    walk_into k t o dir leaf (fuel + i) src rel acc = some r := by
  induction fuel generalizing src rel acc r with
  | zero => cases h
  | succ fuel ih =>
      rw [Nat.add_right_comm, walk_into]
      rw [walk_into] at h
      cases hns : names_in k t src with
      | some ns =>
          rw [hns] at h
          exact hand_on_mono (fun n acc r hr => ih hr) h
      | none =>
          rw [hns] at h
          exact h

end

/-! ## Ways through the directories -/

/-- The directory that the entry `n` of the directory at `l` leads to, links
followed, if it leads to one. -/
def into (k : Kernel) (t : FileTree Bytes) (l : Loc) (n : String) : Option Loc :=
  match t.walk (t.viaLink k.links) l [.normal n] with
  | some m => if t.get m = some .dir then some m else none
  | none => none

section

variable {k : Kernel} {t : FileTree Bytes}

theorem into_eq_some {p : Path} {l m : Loc} {n : String} (hs : k.stat t p = some l) :
    into k t l n = some m ↔ k.stat t (p.child n) = some m ∧ t.get m = some .dir := by
  rw [Kernel.stat_child, hs, Option.bind_some, into]
  cases t.walk (t.viaLink k.links) l [.normal n] with
  | none => simp
  | some x =>
      by_cases hx : t.get x = some .dir
      · simp only [if_pos hx, Option.some.injEq]
        constructor
        · rintro rfl
          exact ⟨rfl, hx⟩
        · exact fun h => h.1
      · simp only [if_neg hx, Option.some.injEq]
        constructor
        · intro h
          cases h
        · rintro ⟨rfl, hm⟩
          exact absurd hm hx

/-- The ways from where a path leads are the paths that go on from it. -/
theorem along_into {p : Path} {l m : Loc} {s : List String} (hs : k.stat t p = some l)
    (hl : t.get l = some .dir) :
    along (into k t) l s = some m ↔ k.stat t (p.down s) = some m ∧ t.get m = some .dir := by
  induction s generalizing p l with
  | nil =>
      rw [along_nil, Path.down_nil, hs]
      constructor
      · rintro ⟨rfl⟩
        exact ⟨rfl, hl⟩
      · exact fun h => h.1
  | cons n s ih =>
      rw [along_cons, ← Path.child_down]
      constructor
      · rintro ⟨u, hu, hrest⟩
        obtain ⟨hsu, hdu⟩ := (into_eq_some hs).mp hu
        exact (ih hsu hdu).mp hrest
      · rintro ⟨hm, hdm⟩
        have hd : k.is_dir t (p.child n) = true :=
          Kernel.is_dir_of_down (Kernel.is_dir_iff.mpr ⟨m, hm, hdm⟩)
        obtain ⟨u, hsu, hdu⟩ := Kernel.is_dir_iff.mp hd
        exact ⟨u, (into_eq_some hs).mpr ⟨hsu, hdu⟩, (ih hsu hdu).mpr ⟨hm, hdm⟩⟩

/-- No way through the directories from `src` comes back to where it has been. -/
def NoCycle (k : Kernel) (t : FileTree Bytes) (src : Path) : Prop :=
  ∀ l, k.stat t src = some l → Loopless (into k t) l

/-- A numbering of the directories that grows on every way leaves no cycle. -/
theorem no_cycle_of_rank (rank : Loc → Nat)
    (h : ∀ l ∈ t.dom, ∀ n ∈ t.children l, ∀ m ∈ into k t l n, rank l < rank m) (src : Path) :
    NoCycle k t src := by
  have hedge : ∀ l n m, into k t l n = some m → rank l < rank m := by
    intro l n m hm
    have hw : ∃ e, t.get (l ++ [n]) = some e := by
      rw [into] at hm
      cases he : t.get (l ++ [n]) with
      | some e => exact ⟨e, rfl⟩
      | none =>
          rw [walk_normal, he] at hm
          cases hm
    obtain ⟨e, he⟩ := hw
    refine h l (t.mem_dom (t.get_parent he)) n ?_ m hm
    rw [mem_children, he, Option.isSome_some]
  have hway : ∀ s l m, along (into k t) l s = some m → rank l + s.length ≤ rank m := by
    intro s
    induction s with
    | nil =>
        rintro l m ⟨rfl⟩
        exact Nat.le_refl _
    | cons n s ih =>
        intro l m hm
        obtain ⟨u, hu, hrest⟩ := along_cons.mp hm
        have hfirst := hedge l n u hu
        have hthen := ih u m hrest
        rw [List.length_cons]
        omega
  intro l _ s r m hs hback
  obtain ⟨u, hu, hr⟩ := along_append.mp hback
  rw [hs] at hu
  cases hu
  have hlen := hway r m m hr
  exact List.length_eq_zero_iff.mp (by omega)

/-- Without a cycle no path to a directory is longer than there are entries. -/
theorem length_of_no_cycle {src : Path} {s : List String} (h : NoCycle k t src)
    (hs : k.is_dir t (src.down s) = true) : s.length < t.dom.length := by
  obtain ⟨m, hm, hdm⟩ := Kernel.is_dir_iff.mp hs
  obtain ⟨l, hl, hdl⟩ := Kernel.is_dir_iff.mp (Kernel.is_dir_of_down hs)
  refine along_length_lt (h l hl) ?_ ((along_into hl hdl).mpr ⟨hm, hdm⟩)
  intro r u hu
  exact t.mem_dom ((along_into hl hdl).mp hu).2

end

/-! ## What is written down -/

/-- The accumulators of `walk_files` after some visits: their listing, the sizes
added up as the counter does. -/
theorem foldl_files (vs : List Visit) (f : Files) :
    vs.foldl (enter (fun _ rel (f : Files) => { f with dirs := f.dirs ++ [rel] })
      (fun src rel e f =>
        { f with bytes := f.bytes + UInt64.ofNat (size e), files := f.files ++ [(src, rel)] })) f =
      ⟨f.files ++ (Listing.of vs).files, f.dirs ++ (Listing.of vs).dirs,
        f.bytes + UInt64.ofNat (Listing.of vs).bytes⟩ := by
  induction vs generalizing f with
  | nil => simp [Listing.of]
  | cons v vs ih =>
      rw [List.foldl_cons, ih]
      obtain ⟨p, rel, leaf⟩ := v
      cases leaf with
      | none => simp [enter, Listing.of]
      | some e => simp [enter, Listing.of, UInt64.ofNat_add, UInt64.add_assoc]

/-- The accumulators of `walk_delete` after some visits. -/
theorem foldl_deletions (vs : List Visit) (f : Deletions) :
    vs.foldl (enter (fun src _ (f : Deletions) => { f with dirs := f.dirs ++ [src] })
      (fun src _ e f =>
        { f with bytes := f.bytes + UInt64.ofNat (removal_size e), files := f.files ++ [src] })) f =
      ⟨f.files ++ (Removals.of vs).files, f.dirs ++ (Removals.of vs).dirs,
        f.bytes + UInt64.ofNat (Removals.of vs).bytes⟩ := by
  induction vs generalizing f with
  | nil => simp [Removals.of]
  | cons v vs ih =>
      rw [List.foldl_cons, ih]
      obtain ⟨p, rel, leaf⟩ := v
      cases leaf with
      | none => simp [enter, Removals.of]
      | some e =>
          cases e <;> simp [enter, Removals.of, removal_size, UInt64.ofNat_add, UInt64.add_assoc]

section

variable {k : Kernel} {t : FileTree Bytes} {src : Path} {rel : List String} {vs : List Visit}

theorem Meets.nodup (h : Meets k t src rel vs) : (vs.map Visit.rel).Nodup := by
  refine List.pairwise_map.mpr (h.ordered.imp ?_)
  intro v w hvw heq
  exact hvw (by rw [heq])

theorem Meets.inj (h : Meets k t src rel vs) {v w : Visit} (hv : v ∈ vs) (hw : w ∈ vs)
    (heq : v.rel = w.rel) : v = w :=
  List.inj_on_of_nodup_map h.nodup hv hw heq

/-- A visit that writes an entry down is at no directory. -/
theorem Meets.leaf_iff (h : Meets k t src rel vs) {v : Visit} (hv : v ∈ vs) :
    v.leaf = none ↔ k.is_dir t v.path = true := by
  obtain ⟨s, hs, hp, -, hleaf⟩ := h.sound v hv
  rw [hleaf, leaf_at]
  by_cases hd : k.is_dir t v.path = true
  · simp [hd]
  · rw [if_neg hd]
    -- what is reached is there
    have hthere : Present k t v.path := by
      rw [hp]
      cases hs with
      | root h => rwa [Path.down_nil]
      | child _ hns hn =>
          rw [← Path.down_child]
          exact present_child hns hn
    have hsome := hthere.resolve_left hd
    constructor
    · intro hnone
      rw [hnone] at hsome
      cases hsome
    · exact fun hd' => absurd hd' hd

/-- The entry that a visit writes down. -/
theorem Meets.entry (h : Meets k t src rel vs) {v : Visit} (hv : v ∈ vs) {e : Entry Bytes}
    (he : v.leaf = some e) : k.lstat t v.path = some e := by
  obtain ⟨s, -, -, -, hleaf⟩ := h.sound v hv
  rw [he, leaf_at] at hleaf
  by_cases hd : k.is_dir t v.path = true
  · rw [if_pos hd] at hleaf
    cases hleaf
  · rw [if_neg hd] at hleaf
    exact hleaf.symm

/-- The size that is counted of the entry at `p`. -/
def size_at (k : Kernel) (t : FileTree Bytes) (count : Entry Bytes → Nat) (p : Path) : Nat :=
  match k.lstat t p with
  | some e => count e
  | none => 0

/-- The sizes counted in the visits are the sizes at the paths written down. -/
theorem Meets.sizes (h : Meets k t src rel vs) (count : Entry Bytes → Nat) :
    (vs.filterMap fun v => v.leaf.map count) =
      (vs.filterMap fun v => v.leaf.map fun _ => v.path).map (size_at k t count) := by
  rw [List.map_filterMap]
  refine List.filterMap_congr ?_
  intro v hv
  cases he : v.leaf with
  | none => rfl
  | some e => simp only [Option.map_some, size_at, h.entry hv he]

/-- What was listed as a file, and what as a directory. -/
theorem Meets.listed (h : Meets k t src [] vs) (r : List String) (b : Bool) :
    (Reached k t src r ∧ k.is_dir t (src.down r) = b) ↔
      ∃ v ∈ vs, v.rel = r ∧ v.path = src.down r ∧ v.leaf.isNone = b := by
  constructor
  · rintro ⟨hr, hd⟩
    obtain ⟨v, hv, hrel⟩ := h.complete r hr
    obtain ⟨s, -, hp, hs, -⟩ := h.sound v hv
    -- the path walked to is the one it was listed under
    have heq : s = r := by
      rw [hrel] at hs
      exact hs.symm
    subst heq
    refine ⟨v, hv, hrel, hp, ?_⟩
    have hleaf := h.leaf_iff hv
    rw [hp, hd] at hleaf
    cases hl : v.leaf with
    | none => exact (hleaf.mp hl).symm
    | some e =>
        rw [hl] at hleaf
        cases b with
        | false => rfl
        | true => exact absurd (hleaf.mpr rfl) (by simp)
  · rintro ⟨v, hv, rfl, hp, hleaf⟩
    obtain ⟨s, hs, -, hrel, -⟩ := h.sound v hv
    have heq : v.rel = s := hrel
    refine ⟨heq ▸ hs, ?_⟩
    rw [← hp]
    have hiff := h.leaf_iff hv
    cases hl : v.leaf with
    | none =>
        rw [hl] at hleaf
        exact (hiff.mp hl).trans hleaf
    | some e =>
        rw [hl] at hleaf
        rw [← hleaf]
        cases hd : k.is_dir t v.path with
        | false => rfl
        | true =>
            rw [hiff.mpr hd] at hl
            cases hl

end

/-! ## The listings -/

/-- What `walk_files` owes to what follows it: all that is reached, once, as a file or
as a directory; a directory before those below it; and targets that differ. -/
structure ListsFiles (k : Kernel) (t : FileTree Bytes) (src : Path) (f : Files) : Prop where
  once : (f.files.map Prod.snd ++ f.dirs).Nodup
  file : ∀ rel, rel ∈ f.files.map Prod.snd ↔
    Reached k t src rel ∧ k.is_dir t (src.down rel) = false
  dir : ∀ rel, rel ∈ f.dirs ↔ Reached k t src rel ∧ k.is_dir t (src.down rel) = true
  parents_first : f.dirs.Pairwise fun a b => ¬ b <+: a
  parent : ∀ rel n, rel ++ [n] ∈ f.files.map Prod.snd → rel ∈ f.dirs
  source : ∀ g ∈ f.files, g.1 = src.down g.2 ∧ (g.2 = [] ↔ g.1 = src)
  targets : ∀ dst, ∀ g ∈ f.files, ∀ h ∈ f.files,
    target_path dst g.2 = target_path dst h.2 → g = h
  bytes : f.bytes = UInt64.ofNat (f.files.map fun g => size_at k t size g.1).sum

/-- What `walk_delete` owes to the removal of files, and to that of the directories,
last to first. -/
structure ListsDeletions (k : Kernel) (t : FileTree Bytes) (src : Path) (f : Deletions) : Prop where
  once : (f.files ++ f.dirs).Nodup
  file : ∀ p, p ∈ f.files ↔
    ∃ rel, p = src.down rel ∧ Reached k t src rel ∧ k.is_dir t p = false
  dir : ∀ p, p ∈ f.dirs ↔ ∃ rel, p = src.down rel ∧ Reached k t src rel ∧ k.is_dir t p = true
  parents_first : f.dirs.Pairwise fun a b => ∀ s, a ≠ b.down s
  children_first : f.dirs.reverse.Pairwise fun a b => ∀ s, b ≠ a.down s
  parent : ∀ p n, p.child n ∈ f.files → p.child n ≠ src → p ∈ f.dirs
  bytes : f.bytes = UInt64.ofNat (f.files.map (size_at k t removal_size)).sum

section

variable {k : Kernel} {t : FileTree Bytes} {src : Path} {vs : List Visit}

theorem mem_file_rels {r : List String} :
    r ∈ (Listing.of vs).files.map Prod.snd ↔ ∃ v ∈ vs, v.rel = r ∧ v.leaf.isNone = false := by
  rw [List.mem_map]
  constructor
  · rintro ⟨⟨p, rel⟩, hf, rfl⟩
    obtain ⟨e, hv⟩ := mem_files.mp hf
    exact ⟨_, hv, rfl, rfl⟩
  · rintro ⟨⟨p, rel, leaf⟩, hv, rfl, hleaf⟩
    cases leaf with
    | none => cases hleaf
    | some e => exact ⟨(p, rel), mem_files.mpr ⟨e, hv⟩, rfl⟩

theorem mem_dir_rels {r : List String} :
    r ∈ (Listing.of vs).dirs ↔ ∃ v ∈ vs, v.rel = r ∧ v.leaf.isNone = true := by
  rw [mem_dirs]
  constructor
  · rintro ⟨p, hv⟩
    exact ⟨_, hv, rfl, rfl⟩
  · rintro ⟨⟨p, rel, leaf⟩, hv, rfl, hleaf⟩
    cases leaf with
    | none => exact ⟨p, hv⟩
    | some e => cases hleaf

theorem Meets.path (h : Meets k t src [] vs) {v : Visit} (hv : v ∈ vs) :
    v.path = src.down v.rel := by
  obtain ⟨s, -, hp, hr, -⟩ := h.sound v hv
  rw [hp, hr, List.nil_append]

/-- **The listing of `walk_files`.** -/
theorem Meets.lists_files (h : Meets k t src [] vs) :
    ListsFiles k t src
      ⟨(Listing.of vs).files, (Listing.of vs).dirs, UInt64.ofNat (Listing.of vs).bytes⟩ := by
  have hpath : ∀ v ∈ vs, v.path = src.down v.rel := fun v hv => h.path hv
  have hfile : ∀ rel, rel ∈ (Listing.of vs).files.map Prod.snd ↔
      Reached k t src rel ∧ k.is_dir t (src.down rel) = false := by
    intro rel
    rw [h.listed rel false, mem_file_rels]
    constructor
    · rintro ⟨v, hv, rfl, hleaf⟩
      exact ⟨v, hv, rfl, hpath v hv, hleaf⟩
    · rintro ⟨v, hv, hr, -, hleaf⟩
      exact ⟨v, hv, hr, hleaf⟩
  have hdir : ∀ rel, rel ∈ (Listing.of vs).dirs ↔
      Reached k t src rel ∧ k.is_dir t (src.down rel) = true := by
    intro rel
    rw [h.listed rel true, mem_dir_rels]
    constructor
    · rintro ⟨v, hv, rfl, hleaf⟩
      exact ⟨v, hv, rfl, hpath v hv, hleaf⟩
    · rintro ⟨v, hv, hr, -, hleaf⟩
      exact ⟨v, hv, hr, hleaf⟩
  have hsource : ∀ g ∈ (Listing.of vs).files, g.1 = src.down g.2 := by
    rintro ⟨p, rel⟩ hg
    obtain ⟨e, hv⟩ := mem_files.mp hg
    exact hpath _ hv
  have hfiles : ((Listing.of vs).files.map Prod.snd).Nodup := by
    -- a way is reached once, so the files have as many names as there are
    refine List.pairwise_map.mpr (List.pairwise_filterMap.mpr ?_)
    refine (List.pairwise_map.mp h.nodup).imp ?_
    intro v w hvw x hx y hy heq
    obtain ⟨-, -, rfl⟩ := Option.map_eq_some_iff.mp hx
    obtain ⟨-, -, rfl⟩ := Option.map_eq_some_iff.mp hy
    exact hvw heq
  have hordered : (Listing.of vs).dirs.Pairwise fun a b => ¬ b <+: a := by
    refine List.pairwise_filterMap.mpr (h.ordered.imp ?_)
    intro v w hvw x hx y hy
    split at hx
    · cases hx
      split at hy
      · cases hy
        exact hvw
      · cases hy
    · cases hx
  refine ⟨?_, hfile, hdir, hordered, ?_, ?_, ?_, ?_⟩
  · refine List.nodup_append.mpr ⟨hfiles, ?_, ?_⟩
    · refine hordered.imp ?_
      rintro a b hab rfl
      exact hab List.prefix_rfl
    · intro r hf r' hd heq
      -- no way is that of a file and of a directory
      subst heq
      have hno := ((hfile r).mp hf).2
      rw [((hdir r).mp hd).2] at hno
      cases hno
  · intro rel n hmem
    obtain ⟨hr, -⟩ := (hfile _).mp hmem
    -- the way of a file has been read out of the directory one name above
    generalize hw : rel ++ [n] = way at hr
    cases hr with
    | root _ => simp at hw
    | @child rel' ns m hr hns hm =>
        obtain ⟨rfl, -⟩ := List.append_inj' hw rfl
        obtain ⟨l, hs, hl, -⟩ := names_in_eq_some.mp hns
        exact (hdir rel).mpr ⟨hr, Kernel.is_dir_iff.mpr ⟨l, hs, hl⟩⟩
  · intro g hg
    have hsrc := hsource g hg
    refine ⟨hsrc, ?_, ?_⟩
    · intro hnil
      rw [hsrc, hnil, Path.down_nil]
    · intro heq
      rw [hsrc] at heq
      exact Path.down_injective src (by rw [heq, Path.down_nil])
  · intro dst g hg g' hg' heq
    rw [target_path_eq, target_path_eq] at heq
    -- two files with one destination have one way, and so one source
    have hrel := Path.down_injective dst heq
    exact Prod.ext (by rw [hsource g hg, hsource g' hg', hrel]) hrel
  · have hsizes := h.sizes size
    simp only [Listing.of, hsizes, List.map_filterMap]
    congr 2
    refine List.filterMap_congr ?_
    intro v _
    cases v.leaf <;> rfl

theorem Meets.removal_dirs (h : Meets k t src [] vs) :
    (Removals.of vs).dirs = (Listing.of vs).dirs.map src.down := by
  simp only [Removals.of, Listing.of, List.map_filterMap]
  refine List.filterMap_congr ?_
  intro v hv
  cases v.leaf with
  | none => simp [h.path hv]
  | some e => rfl

/-- **The listing of `walk_delete`**: the paths of the same visits. -/
theorem Meets.lists_deletions (h : Meets k t src [] vs) :
    ListsDeletions k t src
      ⟨(Removals.of vs).files, (Removals.of vs).dirs, UInt64.ofNat (Removals.of vs).bytes⟩ := by
  -- all of it is the listing of `walk_files`, its ways put below `src`
  have hl := h.lists_files
  have hfiles : (Removals.of vs).files = ((Listing.of vs).files.map Prod.snd).map src.down := by
    simp only [Removals.of, Listing.of, List.map_filterMap]
    refine List.filterMap_congr ?_
    intro v hv
    cases v.leaf with
    | none => rfl
    | some e => simp only [Option.map_some, h.path hv]
  have hdirs := h.removal_dirs
  have hordered : (Removals.of vs).dirs.Pairwise fun a b => ∀ s, a ≠ b.down s := by
    rw [hdirs]
    refine List.pairwise_map.mpr (hl.parents_first.imp ?_)
    intro a b hab s heq
    rw [Path.down_down] at heq
    exact hab ⟨s, (Path.down_injective src heq).symm⟩
  refine ⟨?_, ?_, ?_, hordered, List.pairwise_reverse.mpr hordered, ?_, ?_⟩
  · rw [hfiles, hdirs, ← List.map_append]
    exact hl.once.map (Path.down_injective src)
  · intro p
    rw [hfiles, List.mem_map]
    constructor
    · rintro ⟨rel, hrel, rfl⟩
      exact ⟨rel, rfl, (hl.file rel).mp hrel⟩
    · rintro ⟨rel, rfl, hrel⟩
      exact ⟨rel, (hl.file rel).mpr hrel, rfl⟩
  · intro p
    rw [hdirs, List.mem_map]
    constructor
    · rintro ⟨rel, hrel, rfl⟩
      exact ⟨rel, rfl, (hl.dir rel).mp hrel⟩
    · rintro ⟨rel, rfl, hrel⟩
      exact ⟨rel, (hl.dir rel).mpr hrel, rfl⟩
  · intro p n hmem hne
    rw [hfiles, List.mem_map] at hmem
    obtain ⟨rel, hrel, heq⟩ := hmem
    rcases List.eq_nil_or_concat rel with rfl | ⟨r, m, rfl⟩
    · rw [Path.down_nil] at heq
      exact absurd heq.symm hne
    · rw [List.concat_eq_append] at hrel heq
      rw [← Path.down_child] at heq
      -- the parent of a way below `src` is the way one name shorter
      have hp : src.down r = p := by
        have hparent := congrArg Path.parent heq
        rw [Path.parent_child, Path.parent_child] at hparent
        exact Option.some.inj hparent
      rw [hdirs, ← hp]
      exact List.mem_map_of_mem (hl.parent r m hrel)
  · have hcount : (Removals.of vs).bytes = (vs.filterMap fun v => v.leaf.map removal_size).sum :=
      rfl
    rw [hcount, h.sizes removal_size]
    rfl

end

/-! ## The walks of the jobs

`Mover` has the walk as one list of visits, in the order of the tree; its listings
are the ones written down here. -/

/-- The names as the tree has them. -/
def Order.same : Order := ⟨fun _ ns => ns, fun _ ns => List.Perm.refl ns⟩

theorem hand_on_collect {A : Type} {call : String → A → Option (Except Errno A)}
    {w : String → Option (Except Errno (List Visit))} {f : A → Visit → A}
    (h : ∀ n acc, call n acc = (w n).map fun r => r.map fun vs => vs.foldl f acc)
    (ns : List String) (acc : A) :
    hand_on call ns acc = (collect (ns.map w)).map fun r => r.map fun vs => vs.foldl f acc := by
  induction ns generalizing acc with
  | nil => rfl
  | cons n ns ih =>
      rw [hand_on, h, List.map_cons]
      match w n with
      | none => rfl
      | some (.error e) => rfl
      | some (.ok us) =>
          simp only [Option.map_some, Except.map, collect, ih]
          cases collect (ns.map w) with
          | none => rfl
          | some r =>
              cases r with
              | error e => rfl
              | ok vs => simp

theorem walk_into_eq {A : Type} (k : Kernel) (t : FileTree Bytes)
    (dir : Path → List String → A → A) (leaf : Path → List String → Entry Bytes → A → A)
    (fuel : Nat) (src : Path) (rel : List String) (acc : A) :
    walk_into k t Order.same dir leaf fuel src rel acc =
      (walk k t fuel src rel).map fun r => r.map fun vs => vs.foldl (enter dir leaf) acc := by
  induction fuel generalizing src rel acc with
  | zero => rfl
  | succ fuel ih =>
      rw [walk_into, walk, names_in]
      cases hs : k.stat t src with
      | none =>
          cases he : k.lstat t src <;> simp [Except.map, enter]
      | some l =>
          by_cases hl : t.get l = some .dir
          · simp only [if_pos hl]
            rw [hand_on_collect fun n acc => ih (src.child n) (rel ++ [n]) acc]
            simp only [Order.same]
            cases collect ((t.children l).map fun n => walk k t fuel (src.child n) (rel ++ [n])) with
            | none => rfl
            | some r =>
                cases r with
                | error e => rfl
                | ok vs => rfl
          · simp only [if_neg hl]
            cases he : k.lstat t src <;> simp [Except.map, enter]

/-- The listing of a job is the one that is written down. -/
theorem walk_files_by_eq (k : Kernel) (t : FileTree Bytes) (fuel : Nat) (src : Path) :
    walk_files_by k t Order.same fuel src =
      (walk_files k t fuel src).map fun r => r.map fun l =>
        ⟨l.files, l.dirs, UInt64.ofNat l.bytes⟩ := by
  rw [walk_files_by, walk_into_eq, walk_files, Option.map_map]
  congr 1
  funext r
  cases r with
  | error e => rfl
  | ok vs => simp [Except.map, foldl_files]

/-- The removals of a job are the ones that are written down. -/
theorem walk_delete_by_eq (k : Kernel) (t : FileTree Bytes) (fuel : Nat) (src : Path) :
    walk_delete_by k t Order.same fuel src =
      (walk_delete k t fuel src).map fun r => r.map fun l =>
        ⟨l.files, l.dirs, UInt64.ofNat l.bytes⟩ := by
  rw [walk_delete_by, walk_into_eq, walk_delete, Option.map_map]
  congr 1
  funext r
  cases r with
  | error e => rfl
  | ok vs => simp [Except.map, foldl_deletions]

/-! ## The walks -/

/-- With no cycle on the way both walks end, for any fuel from some amount on, and
without an error if there is anything at the source. -/
theorem walk_into_total {A : Type} {k : Kernel} {t : FileTree Bytes} {src : Path}
    (hthere : Present k t src) (hcycle : NoCycle k t src) (o : Order)
    (dir : Path → List String → A → A) (leaf : Path → List String → Entry Bytes → A → A)
    (acc : A) :
    ∃ vs, Meets k t src [] vs ∧ ∀ i, walk_into k t o dir leaf (t.dom.length + 2 + i) src [] acc =
      some (.ok (vs.foldl (enter dir leaf) acc)) := by
  have hends : walk_into k t o dir leaf (t.dom.length + 2) src [] acc ≠ none := by
    refine walk_into_ends (by omega) ?_
    intro s hs
    have hlen := length_of_no_cycle hcycle hs
    omega
  obtain ⟨r, hr⟩ := Option.ne_none_iff_exists'.mp hends
  obtain ⟨vs, hvs, rfl⟩ := walk_into_spec hthere hr
  exact ⟨vs, hvs, fun i => walk_into_mono hr⟩

/-- Without a cycle both walks end: with the error that says why there is nothing at the
source, or with a listing. -/
theorem walks_end (k : Kernel) (t : FileTree Bytes) (o : Order) (src : Path)
    (hcycle : NoCycle k t src) :
    (¬ Present k t src ∧ ∀ i, walk_files_by k t o (i + 1) src = some (.error (k.why t src)) ∧
        walk_delete_by k t o (i + 1) src = some (.error (k.why t src))) ∨
      ∃ n f g, (∀ i, walk_files_by k t o (n + i) src = some (.ok f) ∧
          walk_delete_by k t o (n + i) src = some (.ok g)) ∧
        ListsFiles k t src f ∧ ListsDeletions k t src g := by
  by_cases hthere : Present k t src
  · obtain ⟨vs, hvs, hfiles⟩ := walk_into_total hthere hcycle o
      (fun _ rel (f : Files) => { f with dirs := f.dirs ++ [rel] })
      (fun src rel e f =>
        { f with bytes := f.bytes + UInt64.ofNat (size e), files := f.files ++ [(src, rel)] })
      ⟨[], [], 0⟩
    obtain ⟨us, hus, hdeletions⟩ := walk_into_total hthere hcycle o
      (fun src _ (f : Deletions) => { f with dirs := f.dirs ++ [src] })
      (fun src _ e f =>
        { f with bytes := f.bytes + UInt64.ofNat (removal_size e), files := f.files ++ [src] })
      ⟨[], [], 0⟩
    refine .inr ⟨t.dom.length + 2, _, _, fun i => ⟨hfiles i, hdeletions i⟩, ?_, ?_⟩
    · rw [foldl_files]
      simpa using hvs.lists_files
    · rw [foldl_deletions]
      simpa using hus.lists_deletions
  · refine .inl ⟨hthere, ?_⟩
    have hnone : names_in k t src = none := by
      rw [names_in_eq_none, Bool.eq_false_iff]
      exact fun hd => hthere (.inl hd)
    have hlstat : k.lstat t src = none := by
      rw [← Option.not_isSome_iff_eq_none]
      exact fun hsome => hthere (.inr hsome)
    intro i
    constructor
    · rw [walk_files_by, walk_into, hnone, hlstat]
    · rw [walk_delete_by, walk_into, hnone, hlstat]

/-- **The walks list everything once, parents first.** Where no way through the
directories comes back to where it has been, `walk_files` and `walk_delete` end,
in whatever order the entries of the directories come; with the error that says why
there is nothing at the source, or with a listing of all that is reached. -/
theorem walks_list (k : Kernel) (t : FileTree Bytes) (o : Order) (src : Path)
    (hcycle : NoCycle k t src) :
    (¬ Present k t src ∧ ∀ i, walk_files_by k t o (i + 1) src = some (.error (k.why t src)) ∧
        walk_delete_by k t o (i + 1) src = some (.error (k.why t src))) ∨
      ∃ n f g, (∀ i, walk_files_by k t o (n + i) src = some (.ok f) ∧
          walk_delete_by k t o (n + i) src = some (.ok g)) ∧
        ListsFiles k t src f ∧ ListsDeletions k t src g :=
  walks_end k t o src hcycle

/-- A directory with a file, and beside it a link that leads to it. -/
def tree_linked : FileTree Bytes :=
  ((FileTree.empty.with_ [] "a" .dir).with_ ["a"] "f" (.file [1])).with_ [] "l"
    (.symlink (.abs ["a"]))

/-- Both walks list the root of this tree. -/
theorem walks_list_linked :
    ∃ n f g, (∀ i, walk_files_by ⟨1, [], fun _ => 0⟩ tree_linked .same (n + i) (.abs []) =
          some (.ok f) ∧
        walk_delete_by ⟨1, [], fun _ => 0⟩ tree_linked .same (n + i) (.abs []) = some (.ok g)) ∧
      ListsFiles ⟨1, [], fun _ => 0⟩ tree_linked (.abs []) f ∧
      ListsDeletions ⟨1, [], fun _ => 0⟩ tree_linked (.abs []) g := by
  have hthere : Present ⟨1, [], fun _ => 0⟩ tree_linked (.abs []) := .inl (by decide)
  exact (walks_list _ _ _ _ (no_cycle_of_rank List.length (by decide) _)).resolve_left
    fun hnot => hnot.1 hthere

end WebDavs.Mover
