/-
Finite file trees, by location.

A tree is a finite partial map from locations to entries in which every entry
hangs off a directory. The three fields after the map keep it that way: they
are carried by the type, so a file below a file, an orphan, or a tree without a
root cannot be built, and every operation below discharges them once.

Only four shapes of change exist, and each is described by one equation for
`get`: `put` sets one entry that is not a directory, `erase` forgets a subtree,
`graft` moves one. The payload of a file is a parameter: contents for one user
of this file, inode numbers for another.
-/
import Mathlib.Data.List.Infix
import Mathlib.Data.List.Dedup
import WebDavs.Posix.Path

set_option autoImplicit false

namespace WebDavs.Posix

/-- File contents. -/
abbrev Bytes := List UInt8

/-- `c` with `bs` written over it at offset `pos`; a gap is filled with
zeros. -/
def splice (c : Bytes) (pos : Nat) (bs : Bytes) : Bytes :=
  (c ++ List.replicate (pos - c.length) 0).take pos ++ bs ++ c.drop (pos + bs.length)

@[simp] theorem splice_end (c bs : Bytes) : splice c c.length bs = c ++ bs := by
  simp [splice]

/-- What a directory holds under one name. -/
inductive Entry (α : Type) where
  | dir
  | file (data : α)
  | symlink (target : Path)
deriving DecidableEq

/-- A finite tree of directories, files and symbolic links. `dom` lists (at
least) the occupied locations, in the order a directory is read. -/
structure FileTree (α : Type) where
  get : Loc → Option (Entry α)
  dom : List Loc
  get_root : get [] = some .dir
  get_parent : ∀ {d : Loc} {n : String} {e : Entry α}, get (d ++ [n]) = some e → get d = some .dir
  mem_dom : ∀ {l : Loc} {e : Entry α}, get l = some e → l ∈ dom

variable {α : Type}

/-- Whether an entry is a directory does not depend on comparing payloads. -/
instance decidableEqDir (o : Option (Entry α)) : Decidable (o = some .dir) :=
  match o with
  | some .dir => isTrue rfl
  | some (.file _) => isFalse (by simp)
  | some (.symlink _) => isFalse (by simp)
  | none => isFalse (by simp)

namespace FileTree

/-! ## Locations above and below -/

/-- Every location above an occupied one is a directory. -/
theorem get_above (t : FileTree α) {l r : Loc} {e : Entry α} (hr : r ≠ [])
    (h : t.get (l ++ r) = some e) : t.get l = some .dir := by
  induction r using List.reverseRecOn generalizing e with
  | nil => exact absurd rfl hr
  | append_singleton r n ih =>
      rw [← List.append_assoc] at h
      have hd : t.get (l ++ r) = some .dir := t.get_parent h
      by_cases hr' : r = []
      · simpa [hr'] using hd
      · exact ih hr' hd

theorem get_of_prefix (t : FileTree α) {l x : Loc} {e : Entry α} (hlx : l <+: x) (hne : l ≠ x)
    (h : t.get x = some e) : t.get l = some .dir := by
  obtain ⟨r, rfl⟩ := hlx
  exact t.get_above (fun hr => hne (by simp [hr])) h

/-- Nothing lies below a location that is not a directory. -/
theorem get_below (t : FileTree α) {l r : Loc} (hr : r ≠ []) (h : t.get l ≠ some .dir) :
    t.get (l ++ r) = none := by
  cases hg : t.get (l ++ r) with
  | none => rfl
  | some e => exact absurd (t.get_above hr hg) h

/-- Above a directory there is a directory. -/
theorem get_dropLast (t : FileTree α) {l : Loc} (h : t.get l = some .dir) :
    t.get l.dropLast = some .dir := by
  by_cases hl : l.dropLast = l
  · rwa [hl]
  · exact t.get_of_prefix (List.dropLast_prefix l) hl h

theorem get_none_of_prefix (t : FileTree α) {l x : Loc} (hlx : l <+: x) (h : t.get l = none) :
    t.get x = none := by
  obtain ⟨r, rfl⟩ := hlx
  by_cases hr : r = []
  · simpa [hr] using h
  · exact t.get_below hr (by simp [h])

/-- A non-directory is a prefix of an occupied location only if it is that
location. -/
theorem eq_of_prefix (t : FileTree α) {l x : Loc} {e : Entry α} (hlx : l <+: x)
    (hl : t.get l ≠ some .dir) (h : t.get x = some e) : l = x := by
  by_contra hne
  exact hl (t.get_of_prefix hlx hne h)

/-! ## Reading a directory -/

/-- The name of `x` in the directory `l`, when `x` lies right below `l`. -/
def childName (l x : Loc) : Option String :=
  if l <+: x then
    match x.drop l.length with
    | [n] => some n
    | _ => none
  else none

theorem childName_eq_some {l x : Loc} {n : String} : childName l x = some n ↔ x = l ++ [n] := by
  constructor
  · intro h
    unfold childName at h
    split at h
    · rename_i hp
      obtain ⟨r, rfl⟩ := hp
      rw [List.drop_left] at h
      split at h
      · simpa using h
      · cases h
    · cases h
  · rintro rfl
    simp [childName]

/-- The names in the directory at `l`, in the order of `dom`. -/
def children (t : FileTree α) (l : Loc) : List String :=
  ((t.dom.filter fun x => (t.get x).isSome).filterMap (childName l)).dedup

theorem mem_children {t : FileTree α} {l : Loc} {n : String} :
    n ∈ t.children l ↔ (t.get (l ++ [n])).isSome := by
  simp only [children, List.mem_dedup, List.mem_filterMap, List.mem_filter, childName_eq_some]
  constructor
  · rintro ⟨x, ⟨_, hx⟩, rfl⟩
    exact hx
  · intro h
    obtain ⟨e, he⟩ := Option.isSome_iff_exists.mp h
    exact ⟨l ++ [n], ⟨t.mem_dom he, h⟩, rfl⟩

theorem nodup_children (t : FileTree α) (l : Loc) : (t.children l).Nodup := List.nodup_dedup _

theorem children_eq_nil {t : FileTree α} {l : Loc} :
    t.children l = [] ↔ ∀ n, t.get (l ++ [n]) = none := by
  rw [List.eq_nil_iff_forall_not_mem]
  refine forall_congr' fun n => ?_
  rw [mem_children]
  cases t.get (l ++ [n]) <;> simp

/-- An empty directory has nothing anywhere below it. -/
theorem get_below_empty {t : FileTree α} {l r : Loc} (h : t.children l = []) (hr : r ≠ []) :
    t.get (l ++ r) = none := by
  obtain ⟨n, s, rfl⟩ := List.exists_cons_of_ne_nil hr
  rw [show l ++ n :: s = (l ++ [n]) ++ s by simp]
  exact t.get_none_of_prefix (List.prefix_append _ _) (children_eq_nil.mp h n)

/-! ## Setting one entry -/

/-- Put `e` under the name `n` in the directory `d`. What was there before must
not be a directory. -/
def put (t : FileTree α) (d : Loc) (n : String) (e : Entry α) (hd : t.get d = some .dir)
    (hn : t.get (d ++ [n]) ≠ some .dir) : FileTree α where
  get x := if x = d ++ [n] then some e else t.get x
  dom := (d ++ [n]) :: t.dom
  get_root := by simp [t.get_root]
  get_parent := by
    intro d' m e' h
    split at h
    · rename_i heq
      obtain ⟨rfl, -⟩ := List.append_inj' heq rfl
      simpa using hd
    · have hd' : t.get d' = some .dir := t.get_parent h
      have hne : d' ≠ d ++ [n] := fun he => hn (he ▸ hd')
      simpa [hne] using hd'
  mem_dom := by
    intro l e' h
    split at h
    · rename_i heq
      exact heq ▸ List.mem_cons_self
    · exact List.mem_cons_of_mem _ (t.mem_dom h)

@[simp] theorem get_put (t : FileTree α) (d : Loc) (n : String) (e : Entry α)
    (hd : t.get d = some .dir) (hn : t.get (d ++ [n]) ≠ some .dir) (x : Loc) :
    (t.put d n e hd hn).get x = if x = d ++ [n] then some e else t.get x := rfl

/-! ## Forgetting a subtree -/

/-- Forget everything at and below `l`. The root cannot go. -/
def erase (t : FileTree α) (l : Loc) (hl : l ≠ []) : FileTree α where
  get x := if l <+: x then none else t.get x
  dom := t.dom
  get_root := by simp [List.prefix_nil, hl, t.get_root]
  get_parent := by
    intro d n e h
    split at h
    · cases h
    · rename_i hp
      have : ¬ l <+: d := fun hld => hp (hld.trans (List.prefix_append _ _))
      simpa [this] using t.get_parent h
  mem_dom := by
    intro x e h
    split at h
    · cases h
    · exact t.mem_dom h

@[simp] theorem get_erase (t : FileTree α) (l : Loc) (hl : l ≠ []) (x : Loc) :
    (t.erase l hl).get x = if l <+: x then none else t.get x := rfl

/-- Forget several subtrees, the root excepted. -/
def eraseAll (t : FileTree α) : List Loc → FileTree α
  | [] => t
  | l :: ls => if hl : l ≠ [] then (t.erase l hl).eraseAll ls else t.eraseAll ls

/-- `eraseAll` forgets all that is below what it was given. -/
theorem get_eraseAll_eq (t : FileTree α) (ls : List Loc) (x : Loc) :
    (t.eraseAll ls).get x = if ∃ l ∈ ls, l ≠ [] ∧ l <+: x then none else t.get x := by
  induction ls generalizing t with
  | nil => simp [eraseAll]
  | cons l ls ih =>
      unfold eraseAll
      split
      · rename_i hl
        rw [ih, get_erase]
        by_cases hx : l <+: x
        · simp [hl, hx]
        · simp [hl, hx]
      · rename_i hl
        rw [ih]
        simp [hl]

/-- `eraseAll` only ever forgets, and only below what it was given. -/
theorem get_eraseAll (t : FileTree α) (ls : List Loc) (x : Loc) :
    (t.eraseAll ls).get x = t.get x
      ∨ ((t.eraseAll ls).get x = none ∧ ∃ l ∈ ls, l ≠ [] ∧ l <+: x) := by
  rw [get_eraseAll_eq]
  split
  · rename_i h
    exact .inr ⟨rfl, h⟩
  · exact .inl rfl

/-! ## Moving a subtree -/

/-- Move everything at and below `a` to the name `n` in the directory `d`, in
place of what was there. `d` must not lie in the subtree that moves. -/
def graft (t : FileTree α) (a d : Loc) (n : String) (ha : a ≠ []) (hd : t.get d = some .dir)
    (had : ¬ a <+: d) : FileTree α where
  get x :=
    if d ++ [n] <+: x then t.get (a ++ x.drop (d ++ [n]).length)
    else if a <+: x then none else t.get x
  dom := t.dom ++ t.dom.map fun x => (d ++ [n]) ++ x.drop a.length
  get_root := by simp [List.prefix_nil, ha, t.get_root]
  get_parent := by
    intro l m e h
    by_cases hb : d ++ [n] <+: l ++ [m]
    · rw [if_pos hb] at h
      rcases List.prefix_concat_iff.mp hb with heq | hbl
      · -- the moved root itself: its new parent is `d`, which stays
        obtain ⟨rfl, -⟩ := List.append_inj' heq rfl
        have hnb : ¬ d ++ [n] <+: d := fun hp => by
          have hlen := hp.length_le
          simp only [List.length_append, List.length_singleton] at hlen
          omega
        simp only [if_neg hnb, if_neg had]
        exact hd
      -- below the moved root: its parent came along
      · obtain ⟨r, rfl⟩ := hbl
        rw [List.append_assoc, List.drop_left, ← List.append_assoc] at h
        simp only [List.prefix_append, if_true, List.drop_left]
        exact t.get_parent h
    · rw [if_neg hb] at h
      split at h
      · cases h
      · rename_i hal
        -- outside: the parent is neither replaced nor gone
        have hbl : ¬ d ++ [n] <+: l := fun hp => hb (hp.trans (List.prefix_append _ _))
        have hal' : ¬ a <+: l := fun hp => hal (hp.trans (List.prefix_append _ _))
        simp only [if_neg hbl, if_neg hal']
        exact t.get_parent h
  mem_dom := by
    intro x e h
    split at h
    · rename_i hp
      obtain ⟨r, rfl⟩ := hp
      rw [List.drop_left] at h
      refine List.mem_append_right _ (List.mem_map.mpr ⟨a ++ r, t.mem_dom h, ?_⟩)
      rw [List.drop_left]
    · split at h
      · cases h
      · exact List.mem_append_left _ (t.mem_dom h)

theorem get_graft (t : FileTree α) (a d : Loc) (n : String) (ha : a ≠ []) (hd : t.get d = some .dir)
    (had : ¬ a <+: d) (x : Loc) :
    (t.graft a d n ha hd had).get x
      = if d ++ [n] <+: x then t.get (a ++ x.drop (d ++ [n]).length)
        else if a <+: x then none else t.get x := rfl

/-! ## The empty tree -/

/-- A tree holding nothing but its root. -/
def empty : FileTree α where
  get x := if x = [] then some .dir else none
  dom := [[]]
  get_root := by simp
  get_parent := by intro d n e h; simp at h
  mem_dom := by
    intro l e h
    split at h
    · rename_i heq; simp [heq]
    · cases h

theorem dir_of_room {t : FileTree α} {d : Loc} {n : String}
    (h : t.get d = some .dir ∧ t.get (d ++ [n]) ≠ some .dir) : t.get d = some .dir := h.1

theorem not_dir_of_room {t : FileTree α} {d : Loc} {n : String}
    (h : t.get d = some .dir ∧ t.get (d ++ [n]) ≠ some .dir) : t.get (d ++ [n]) ≠ some .dir := h.2

/-- Put `e` under a name, or leave the tree alone where `put` does not apply.
For writing down concrete trees. -/
def with_ (t : FileTree α) (d : Loc) (n : String) (e : Entry α) : FileTree α :=
  if h : t.get d = some .dir ∧ t.get (d ++ [n]) ≠ some .dir then
    t.put d n e (dir_of_room h) (not_dir_of_room h)
  else t

end FileTree

end WebDavs.Posix
