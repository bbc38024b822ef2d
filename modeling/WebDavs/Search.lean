/-
`src/bin/file-mover.rs`: the search (`parse_search_query`, `walk_search`,
`run_search`).

The walk goes down a directory tree in the order the directories are read and
pushes what matches into the record of the search. It stops taking matches at
`MAX_RESULTS`, and that is decided in two places: at the push of a match, which
sets `truncated`, and on entering a directory, which does not. A match behind
the second gate is neither listed nor accounted for. What the walk lists is the
first `MAX_RESULTS` matches (`scan_matches`), and when it says that there are
more is a question of where the next match lies (`scan_truncated`).
-/
import Mathlib.Data.List.Nodup
import Mathlib.Data.List.Perm.Subperm
import Mathlib.Data.String.Basic
import WebDavs.AutoFs
import WebDavs.Mover

set_option autoImplicit false

namespace WebDavs.Mover

open WebDavs.Posix
open WebDavs.AutoFs (trim)

/-! ## The query -/

/-- `parse_search_query`: the name substring and the suffixes. `lower` is
`str::to_lowercase`; nothing here depends on what it does. -/
def parse_search_query (lower : String → String) (q : String) : String × List String :=
  let toks := ((q.toList.splitOn ';').map trim).filter (· ≠ [])
  let suffixes := toks.filterMap fun t =>
    if ['*', '.'] <+: t then some ("." ++ lower (String.ofList (t.drop 2))) else none
  let subs := toks.filterMap fun t =>
    if ['*', '.'] <+: t then none else some (lower (String.ofList t))
  (String.intercalate " " subs, suffixes)

example : parse_search_query id " foo ;*.png;; *.jpg" = ("foo", [".png", ".jpg"]) := by
  decide +kernel

/-- `matched`: does a name match the parsed query? -/
def matched (lower : String → String) (query : String × List String) (name : String) : Bool :=
  let low := (lower name).toList
  match query with
  | (sub, []) => sub = "" || decide (sub.toList <:+: low)
  | (_, suffixes) => suffixes.any fun s => decide (s.toList <:+ low)

/-! ## The tree and the record -/

/-- A directory, as `read_dir` gives it: its entries in some order. A file and a
symbolic link are leaves, with the length `symlink_metadata` reports. -/
inductive Dir where
  | nil
  | leaf (name : String) (len : Nat) (rest : Dir)
  | dir (name : String) (sub rest : Dir)

/-- One object of `matches`. -/
structure Match where
  name : String
  path : String
  is_dir : Bool
  size : Nat
deriving DecidableEq

/-- The `Search` record, less its fixed fields and `error`, which nothing sets. -/
structure Search where
  status : String
  done_dirs : Nat
  matches_ : List Match
  truncated : Bool

/-- The record as `handle_search_start` inserts it. -/
def Search.start : Search := ⟨"running", 0, [], false⟩

def MAX_RESULTS : Nat := 1000

namespace Search

variable (s : Search)

/-- `s.matches.push`. -/
def push (m : Match) : Search := { s with matches_ := s.matches_ ++ [m] }

/-- The gate at the top of `walk_search`. -/
def full : Bool := s.truncated || MAX_RESULTS ≤ s.matches_.length

/-- Enter a directory, past the gate: `body` reads it. -/
def enter (body : Search → Search) : Search := if s.full then s else body s

end Search

section Walk

variable (wanted : String → Bool)

/-- The loop of `walk_search` over the entries of the directory `p`: `wanted` is
`matched` of the query at hand. -/
def scan : PathBuf → Dir → Search → Search
  | _, .nil, s => s
  | p, .leaf name len rest, s =>
    if wanted name then
      if MAX_RESULTS ≤ s.matches_.length then { s with truncated := true }
      else scan p rest (s.push ⟨name, (p.join name).text, false, len⟩)
    else scan p rest s
  | p, .dir name sub rest, s =>
    if wanted name then
      if MAX_RESULTS ≤ s.matches_.length then { s with truncated := true }
      else
        let s := s.push ⟨name, (p.join name).text, true, 0⟩
        let s := { s with done_dirs := s.done_dirs + 1 }
        scan p rest (s.enter (scan (p.join name) sub))
    else
      let s := { s with done_dirs := s.done_dirs + 1 }
      scan p rest (s.enter (scan (p.join name) sub))

/-- `walk_search`. -/
def walk_search (p : PathBuf) (d : Dir) (s : Search) : Search := s.enter (scan wanted p d)

end Walk

/-- `run_search`, up to the parsing of the query. -/
def search_with (wanted : String → Bool) (root : PathBuf) (d : Dir) (s : Search) : Search :=
  let s := walk_search wanted root d s
  { s with matches_ := s.matches_.mergeSort fun a b => a.path ≤ b.path, status := "done" }

/-- `run_search`. -/
def run_search (lower : String → String) (root : PathBuf) (q : String) (d : Dir) : Search :=
  search_with (matched lower (parse_search_query lower q)) root d Search.start

/-! ## What there is to find -/

/-- An entry below the root of a walk: the names that lead to it, and the object
the search would list for it. -/
structure Listed where
  rel : List String
  shown : Match

/-- The same entry, seen from one directory further up. -/
def Listed.under (name : String) (e : Listed) : Listed := { e with rel := name :: e.rel }

/-- The entries below the directory `p`, in the order of the walk. -/
def entries : PathBuf → Dir → List Listed
  | _, .nil => []
  | p, .leaf name len rest => ⟨[name], name, (p.join name).text, false, len⟩ :: entries p rest
  | p, .dir name sub rest =>
    ⟨[name], name, (p.join name).text, true, 0⟩ ::
      ((entries (p.join name) sub).map (Listed.under name) ++ entries p rest)

/-- The names in a directory itself. -/
def Dir.names : Dir → List String
  | .nil => []
  | .leaf name _ rest => name :: rest.names
  | .dir name _ rest => name :: rest.names

/-- What every directory of a real file system satisfies: a name occurs once, and
it is neither empty nor holds a separator. -/
def Dir.Valid : Dir → Prop
  | .nil => True
  | .leaf name _ rest => (name ≠ "" ∧ '/' ∉ name.toList) ∧ name ∉ rest.names ∧ rest.Valid
  | .dir name sub rest =>
    (name ≠ "" ∧ '/' ∉ name.toList) ∧ name ∉ rest.names ∧ sub.Valid ∧ rest.Valid

/-- The entries that match, in the order of the walk. -/
def hits (wanted : String → Bool) (p : PathBuf) (d : Dir) : List Listed :=
  (entries p d).filter fun e => wanted e.shown.name

/-! ## What the walk lists -/

section Walk

variable {wanted : String → Bool}

@[simp] theorem hits_nil (p : PathBuf) : hits wanted p .nil = [] := rfl

theorem hits_leaf (p : PathBuf) (name : String) (len : Nat) (rest : Dir) :
    hits wanted p (.leaf name len rest) =
      if wanted name then
        ⟨[name], name, (p.join name).text, false, len⟩ :: hits wanted p rest
      else hits wanted p rest := by
  simp only [hits, entries, List.filter_cons]

theorem hits_dir (p : PathBuf) (name : String) (sub rest : Dir) :
    hits wanted p (.dir name sub rest) =
      if wanted name then
        ⟨[name], name, (p.join name).text, true, 0⟩ ::
          ((hits wanted (p.join name) sub).map (Listed.under name) ++ hits wanted p rest)
      else (hits wanted (p.join name) sub).map (Listed.under name) ++ hits wanted p rest := by
  have hu : (fun e : Listed => wanted e.shown.name) ∘ Listed.under name =
      fun e => wanted e.shown.name := rfl
  simp only [hits, entries, List.filter_cons, List.filter_append, List.filter_map, hu]

/-- What holds of the record all through a walk: it is never longer than the
bound, and said to be cut short only at the bound. -/
structure Search.Sane (s : Search) : Prop where
  le : s.matches_.length ≤ MAX_RESULTS
  cut : s.truncated = true → MAX_RESULTS ≤ s.matches_.length

theorem Search.Sane.full_iff {s : Search} (hs : s.Sane) :
    s.full = true ↔ MAX_RESULTS ≤ s.matches_.length := by
  simp only [Search.full, Bool.or_eq_true, decide_eq_true_eq]
  exact ⟨fun h => h.elim hs.cut id, Or.inr⟩

theorem Search.Sane.push {s : Search} (hs : s.Sane) (m : Match)
    (hr : ¬ MAX_RESULTS ≤ s.matches_.length) : (s.push m).Sane := by
  constructor
  · simp only [Search.push, List.length_append, List.length_singleton]
    omega
  · intro ht
    exact absurd (hs.cut ht) hr

theorem Search.Sane.count {s : Search} (hs : s.Sane) (n : Nat) :
    Search.Sane { s with done_dirs := n } :=
  ⟨hs.le, hs.cut⟩

/-- Cutting twice is cutting once. -/
theorem take_append_of_take {α : Type} (xs ys : List α) (n : Nat) :
    (xs.take n ++ ys).take n = (xs ++ ys).take n := by
  rw [List.take_append, List.take_append, List.take_take, Nat.min_self, List.length_take]
  congr 2
  omega

/-- What a walk over some entries does to the matches, when `hs` of the entries
match: it takes as many of them as there is room for. -/
structure Took (hs : List Listed) (s s' : Search) : Prop where
  sane : s'.Sane
  eq : s'.matches_ = (s.matches_ ++ hs.map Listed.shown).take MAX_RESULTS

theorem Took.refl {s : Search} (hs : s.Sane) : Took [] s s := by
  refine ⟨hs, ?_⟩
  rw [List.map_nil, List.append_nil, List.take_of_length_le hs.le]

theorem Took.trans {as bs : List Listed} {s s' s'' : Search} (h : Took as s s')
    (h' : Took bs s' s'') : Took (as ++ bs) s s'' := by
  refine ⟨h'.sane, ?_⟩
  rw [h'.eq, h.eq, take_append_of_take, List.map_append, List.append_assoc]

theorem Took.push {s : Search} (hs : s.Sane) (e : Listed)
    (hr : ¬ MAX_RESULTS ≤ s.matches_.length) : Took [e] s (s.push e.shown) := by
  refine ⟨hs.push _ hr, ?_⟩
  exact (List.take_of_length_le (hs.push e.shown hr).le).symm

/-- At the bound nothing more is taken, whatever matches. -/
theorem Took.full {s s' : Search} (hs : s'.Sane) (hm : s'.matches_ = s.matches_)
    (hr : MAX_RESULTS ≤ s.matches_.length) (as : List Listed) : Took as s s' := by
  refine ⟨hs, ?_⟩
  have hlen : s.matches_.length = MAX_RESULTS := le_antisymm (hm ▸ hs.le) hr
  rw [hm, ← hlen, List.take_left]

/-- The `break`. -/
theorem Took.cut {s : Search} (hs : s.Sane) (hr : MAX_RESULTS ≤ s.matches_.length)
    (as : List Listed) : Took as s { s with truncated := true } := by
  have hs' : Search.Sane { s with truncated := true } := ⟨hs.le, fun _ => hr⟩
  exact Took.full (s := s) hs' rfl hr as

theorem Took.under {as : List Listed} {s s' : Search} (h : Took as s s') (name : String) :
    Took (as.map (Listed.under name)) s s' := by
  refine ⟨h.sane, ?_⟩
  rw [h.eq, List.map_map]
  rfl

theorem Took.count {as : List Listed} {s s' : Search} (h : Took as s s') (n : Nat) :
    Took as s { s' with done_dirs := n } :=
  ⟨h.sane.count n, h.eq⟩

/-- Entering a directory takes what the loop over it would take: past the gate
there is no room. -/
theorem Took.enter {as : List Listed} {s : Search} {body : Search → Search} (hs : s.Sane)
    (hb : Took as s (body s)) : Took as s (s.enter body) := by
  unfold Search.enter
  by_cases hf : s.full = true
  · rw [if_pos hf]
    exact Took.full hs rfl (hs.full_iff.mp hf) as
  · rwa [if_neg hf]

/-- **The walk takes the matches in its order, as many as there is room for.** -/
theorem scan_took (d : Dir) : ∀ (p : PathBuf) (s : Search), s.Sane →
    Took (hits wanted p d) s (scan wanted p d s) := by
  induction d with
  | nil =>
    intro p s hs
    exact Took.refl hs
  | leaf name len rest ih =>
    intro p s hs
    rw [hits_leaf, scan]
    by_cases hw : wanted name = true
    · rw [if_pos hw, if_pos hw]
      by_cases hr : MAX_RESULTS ≤ s.matches_.length
      · rw [if_pos hr]
        exact Took.cut hs hr _
      · rw [if_neg hr]
        exact (Took.push hs ⟨[name], _⟩ hr).trans (ih p _ (hs.push _ hr))
    · rw [if_neg hw, if_neg hw]
      exact ih p s hs
  | dir name sub rest ihs ihr =>
    intro p s hs
    rw [hits_dir, scan]
    -- the entries of the subdirectory, then the rest of this one
    have below : ∀ s₁ : Search, s₁.Sane →
        Took ((hits wanted (p.join name) sub).map (Listed.under name) ++ hits wanted p rest) s₁
          (scan wanted p rest (s₁.enter (scan wanted (p.join name) sub))) := by
      intro s₁ hs₁
      have hsub := Took.enter hs₁ ((ihs (p.join name) s₁ hs₁).under name)
      exact hsub.trans (ihr p _ hsub.sane)
    by_cases hw : wanted name = true
    · rw [if_pos hw, if_pos hw]
      by_cases hr : MAX_RESULTS ≤ s.matches_.length
      · rw [if_pos hr]
        exact Took.cut hs hr _
      · rw [if_neg hr]
        have hp := (Took.push hs ⟨[name], ⟨name, (p.join name).text, true, 0⟩⟩ hr).count
          (s.done_dirs + 1)
        exact hp.trans (below _ hp.sane)
    · rw [if_neg hw, if_neg hw]
      have hc := (Took.refl hs).count (s.done_dirs + 1)
      exact hc.trans (below _ hc.sane)

/-! ## When the walk says that there is more -/

/-- The directories that the walk has open once it has taken `k` of the matches
`hs`: at first the one it starts in, later those above the last match. -/
def Opened (hs : List Listed) (k : Nat) (dir : List String) : Prop :=
  match k with
  | 0 => dir = []
  | k + 1 => ∃ m, hs[k]? = some m ∧ dir <+: m.rel.dropLast

/-- One of the matches after the first `k` lies in an open directory itself. -/
def Beyond (k : Nat) (hs : List Listed) : Prop :=
  ∃ x ∈ hs.drop k, Opened hs k x.rel.dropLast

theorem not_beyond_nil (k : Nat) : ¬ Beyond k [] := by
  rintro ⟨x, hx, _⟩
  rw [List.drop_nil] at hx
  cases hx

theorem beyond_of_direct {e : Listed} (he : e.rel.dropLast = []) (hs : List Listed) :
    Beyond 0 (e :: hs) :=
  ⟨e, List.mem_cons_self, he⟩

/-- A match in the directory itself takes one place and opens nothing. -/
theorem beyond_cons {e : Listed} (he : e.rel.dropLast = []) (hs : List Listed) (k : Nat) :
    Beyond (k + 1) (e :: hs) ↔ Beyond k hs := by
  have ho : ∀ dir, Opened (e :: hs) (k + 1) dir ↔ Opened hs k dir := by
    intro dir
    cases k with
    | zero =>
      show (∃ m, some e = some m ∧ dir <+: m.rel.dropLast) ↔ dir = []
      simp [he]
    | succ k => exact Iff.rfl
  simp only [Beyond, ho, List.drop_succ_cons]

theorem dropLast_under {e : Listed} (he : e.rel ≠ []) (name : String) :
    (e.under name).rel.dropLast = name :: e.rel.dropLast :=
  List.dropLast_cons_of_ne_nil he

/-- The matches of a subdirectory, then those of the rest: the walk says that
there is more from inside the subdirectory only if it had room on entering it,
and otherwise from what is left of this one. -/
theorem beyond_append {as bs : List Listed} {name : String} (ha : ∀ x ∈ as, x.rel ≠ [])
    (hb : ∀ x ∈ bs, x.rel.head? ≠ some name) (k : Nat) :
    Beyond k (as.map (Listed.under name) ++ bs) ↔
      (k ≠ 0 ∧ Beyond k as) ∨ Beyond (k - as.length) bs := by
  have hd : (as.map (Listed.under name) ++ bs).drop k =
      (as.drop k).map (Listed.under name) ++ bs.drop (k - as.length) := by
    rw [List.drop_append, List.length_map, List.map_drop]
  -- no directory of the rest lies in the subdirectory
  have hrest : ∀ x ∈ bs, ∀ dir, x.rel.dropLast <+: name :: dir → x.rel.dropLast = [] := by
    intro x hx dir hp
    cases hr : x.rel with
    | nil => rfl
    | cons n ns =>
      by_contra hne
      obtain ⟨t, ht⟩ := hp
      cases ns with
      | nil => exact hne rfl
      | cons n' ns =>
        rw [hr, List.dropLast_cons_of_ne_nil (List.cons_ne_nil _ _), List.cons_append] at ht
        have hn : n = name := (List.cons.inj ht).1
        exact hb x hx (by rw [hr, List.head?_cons, hn])
  cases k with
  | zero =>
    simp only [Beyond, hd, List.mem_append, Opened, ne_eq, not_true_eq_false, false_and,
      false_or, Nat.zero_sub, List.drop_zero]
    constructor
    · rintro ⟨x, hx | hx, he⟩
      · obtain ⟨y, hy, rfl⟩ := List.mem_map.mp hx
        rw [dropLast_under (ha y hy)] at he
        cases he
      · exact ⟨x, hx, he⟩
    · rintro ⟨x, hx, he⟩
      exact ⟨x, Or.inr hx, he⟩
  | succ j =>
    by_cases hj : j < as.length
    · -- the last match taken is one of the subdirectory
      have hm : (as.map (Listed.under name) ++ bs)[j]? = some (as[j].under name) := by
        rw [List.getElem?_append_left (by rwa [List.length_map]), List.getElem?_map,
          List.getElem?_eq_getElem hj, Option.map_some]
      have hz : j + 1 - as.length = 0 := by omega
      simp only [Beyond, hd, hz, List.mem_append, Opened, hm, Option.some.injEq,
        List.getElem?_eq_getElem hj, exists_eq_left', List.drop_zero,
        dropLast_under (ha _ (List.getElem_mem hj))]
      constructor
      · rintro ⟨x, hx | hx, he⟩
        · obtain ⟨y, hy, rfl⟩ := List.mem_map.mp hx
          rw [dropLast_under (ha y (List.mem_of_mem_drop hy))] at he
          exact Or.inl ⟨Nat.succ_ne_zero j, y, hy, (List.cons_prefix_cons.mp he).2⟩
        · exact Or.inr ⟨x, hx, hrest x hx _ he⟩
      · rintro (⟨_, y, hy, he⟩ | ⟨x, hx, he⟩)
        · refine ⟨y.under name, Or.inl (List.mem_map_of_mem hy), ?_⟩
          rw [dropLast_under (ha y (List.mem_of_mem_drop hy))]
          exact List.cons_prefix_cons.mpr ⟨rfl, he⟩
        · exact ⟨x, Or.inr hx, he ▸ List.nil_prefix⟩
    · -- the subdirectory is behind
      have hle : as.length ≤ j := Nat.le_of_not_lt hj
      have hm : (as.map (Listed.under name) ++ bs)[j]? = bs[j - as.length]? := by
        rw [List.getElem?_append_right (by rwa [List.length_map]), List.length_map]
      have hk : j + 1 - as.length = j - as.length + 1 := by omega
      have hn : as.drop (j + 1) = [] := List.drop_eq_nil_of_le (by omega)
      simp only [Beyond, hd, hk, hn, List.map_nil, List.nil_append, Opened, hm,
        List.not_mem_nil, false_and, exists_false, and_false, false_or]

theorem entries_head (d : Dir) : ∀ (p : PathBuf) (x : Listed), x ∈ entries p d →
    ∃ n ∈ d.names, x.rel.head? = some n := by
  induction d with
  | nil =>
    intro p x hx
    cases hx
  | leaf name len rest ih =>
    intro p x hx
    rw [entries, List.mem_cons] at hx
    rcases hx with rfl | hx
    · exact ⟨name, List.mem_cons_self, rfl⟩
    · obtain ⟨n, hn, h⟩ := ih p x hx
      exact ⟨n, List.mem_cons_of_mem _ hn, h⟩
  | dir name sub rest ihs ihr =>
    intro p x hx
    rw [entries, List.mem_cons, List.mem_append] at hx
    rcases hx with rfl | hx | hx
    · exact ⟨name, List.mem_cons_self, rfl⟩
    · obtain ⟨y, _, rfl⟩ := List.mem_map.mp hx
      exact ⟨name, List.mem_cons_self, rfl⟩
    · obtain ⟨n, hn, h⟩ := ihr p x hx
      exact ⟨n, List.mem_cons_of_mem _ hn, h⟩

theorem entries_rel_ne_nil {d : Dir} {p : PathBuf} {x : Listed} (hx : x ∈ entries p d) :
    x.rel ≠ [] := by
  obtain ⟨n, _, h⟩ := entries_head d p x hx
  intro hn
  rw [hn] at h
  cases h

/-- How many more matches the record takes. -/
def Search.room (s : Search) : Nat := MAX_RESULTS - s.matches_.length

theorem Took.room {as : List Listed} {s s' : Search} (h : Took as s s') :
    s'.room = s.room - as.length := by
  simp only [Search.room, h.eq, List.length_take, List.length_append, List.length_map]
  omega

/-- What a walk over some entries says about further matches. -/
def Told (hs : List Listed) (s s' : Search) : Prop :=
  s'.truncated = true ↔ s.truncated = true ∨ Beyond s.room hs

theorem told_nil (s : Search) : Told [] s s := by
  simp only [Told, not_beyond_nil, or_false]

/-- The `break`. -/
theorem told_cut {s : Search} (hr : MAX_RESULTS ≤ s.matches_.length) {e : Listed}
    (he : e.rel.dropLast = []) (hs : List Listed) :
    Told (e :: hs) s { s with truncated := true } := by
  have hz : s.room = 0 := by
    unfold Search.room
    omega
  simp only [Told, hz, true_iff]
  exact Or.inr (beyond_of_direct he hs)

theorem told_push {s s' : Search} (hr : ¬ MAX_RESULTS ≤ s.matches_.length) {e : Listed}
    (he : e.rel.dropLast = []) {hs : List Listed} (h : Told hs (s.push e.shown) s') :
    Told (e :: hs) s s' := by
  have hroom : s.room = (s.push e.shown).room + 1 := by
    simp only [Search.room, Search.push, List.length_append, List.length_singleton]
    omega
  simp only [Told, hroom, beyond_cons he]
  exact h

/-- A subdirectory, then the rest: on entering it the walk looks for room. -/
theorem told_append {as bs : List Listed} {name : String} {s s' : Search}
    {body : Search → Search} (hs : s.Sane) (ha : ∀ x ∈ as, x.rel ≠ [])
    (hb : ∀ x ∈ bs, x.rel.head? ≠ some name) (hk : Took as s (body s)) (ht : Told as s (body s))
    (hrest : Told bs (s.enter body) s') :
    Told (as.map (Listed.under name) ++ bs) s s' := by
  have hroom : (s.enter body).room = s.room - as.length := (Took.enter hs hk).room
  have hsub : (s.enter body).truncated = true ↔
      s.truncated = true ∨ (s.room ≠ 0 ∧ Beyond s.room as) := by
    unfold Search.enter
    by_cases hf : s.full = true
    · have hz : s.room = 0 := Nat.sub_eq_zero_of_le (hs.full_iff.mp hf)
      simp only [if_pos hf, hz, ne_eq, not_true_eq_false, false_and, or_false]
    · have hlt : ¬ MAX_RESULTS ≤ s.matches_.length := fun h => hf (hs.full_iff.mpr h)
      have hz : s.room ≠ 0 := by
        unfold Search.room
        omega
      simp only [if_neg hf, hz, ne_eq, not_false_eq_true, true_and]
      exact ht
  unfold Told at hrest ⊢
  rw [hrest, hsub, hroom, beyond_append ha hb, or_assoc]

/-- **The walk says that there is more exactly when a further match lies in a
directory that it has open when the record is full.** -/
theorem scan_told (d : Dir) : ∀ (p : PathBuf) (s : Search), d.Valid → s.Sane →
    Told (hits wanted p d) s (scan wanted p d s) := by
  induction d with
  | nil =>
    intro p s _ _
    exact told_nil s
  | leaf name len rest ih =>
    intro p s hv hs
    obtain ⟨_, _, hv⟩ := hv
    rw [hits_leaf, scan]
    by_cases hw : wanted name = true
    · rw [if_pos hw, if_pos hw]
      by_cases hr : MAX_RESULTS ≤ s.matches_.length
      · rw [if_pos hr]
        exact told_cut hr rfl _
      · rw [if_neg hr]
        exact told_push hr rfl (ih p _ hv (hs.push _ hr))
    · rw [if_neg hw, if_neg hw]
      exact ih p s hv hs
  | dir name sub rest ihs ihr =>
    intro p s hv hs
    obtain ⟨_, hn, hvs, hvr⟩ := hv
    rw [hits_dir, scan]
    -- what is in the directory and what comes after it, from the record the entry itself
    -- leaves
    have below : ∀ s₁ : Search, s₁.Sane →
        Told ((hits wanted (p.join name) sub).map (Listed.under name) ++ hits wanted p rest) s₁
          (scan wanted p rest (s₁.enter (scan wanted (p.join name) sub))) := by
      intro s₁ hs₁
      have hk : Took (hits wanted (p.join name) sub) s₁ (scan wanted (p.join name) sub s₁) :=
        scan_took sub (p.join name) s₁ hs₁
      refine told_append hs₁ ?_ ?_ hk (ihs _ s₁ hvs hs₁)
        (ihr p _ hvr (Took.enter hs₁ hk).sane)
      -- no hit below is the directory itself, and none after it has its name
      · intro x hx
        exact entries_rel_ne_nil (List.mem_filter.mp hx).1
      · intro x hx h
        obtain ⟨n, hn', hh⟩ := entries_head rest p x (List.mem_filter.mp hx).1
        rw [h, Option.some.injEq] at hh
        exact hn (hh ▸ hn')
    by_cases hw : wanted name = true
    · rw [if_pos hw, if_pos hw]
      by_cases hr : MAX_RESULTS ≤ s.matches_.length
      · rw [if_pos hr]
        exact told_cut hr rfl _
      · rw [if_neg hr]
        have hp := (hs.push ⟨name, (p.join name).text, true, 0⟩ hr).count (s.done_dirs + 1)
        exact told_push hr rfl (below _ hp)
    · rw [if_neg hw, if_neg hw]
      exact below _ (hs.count (s.done_dirs + 1))

end Walk
/-! ## No entry twice -/

theorem entries_names {d : Dir} (hv : d.Valid) : ∀ (p : PathBuf) (x : Listed), x ∈ entries p d →
    ∀ n ∈ x.rel, n ≠ "" ∧ '/' ∉ n.toList := by
  induction d with
  | nil =>
    intro p x hx
    cases hx
  | leaf name len rest ih =>
    intro p x hx n hn
    obtain ⟨hname, _, hvr⟩ := hv
    rw [entries, List.mem_cons] at hx
    rcases hx with rfl | hx
    · rwa [List.mem_singleton.mp hn]
    · exact ih hvr p x hx n hn
  | dir name sub rest ihs ihr =>
    intro p x hx n hn
    obtain ⟨hname, _, hvs, hvr⟩ := hv
    rw [entries, List.mem_cons, List.mem_append] at hx
    rcases hx with rfl | hx | hx
    · rwa [List.mem_singleton.mp hn]
    · obtain ⟨y, hy, rfl⟩ := List.mem_map.mp hx
      rcases List.mem_cons.mp hn with rfl | hn
      · exact hname
      · exact ihs hvs _ y hy n hn
    · exact ihr hvr p x hx n hn

theorem nodup_rel {d : Dir} (hv : d.Valid) :
    ∀ p : PathBuf, ((entries p d).map Listed.rel).Nodup := by
  induction d with
  | nil =>
    intro p
    exact List.nodup_nil
  | leaf name len rest ih =>
    intro p
    obtain ⟨_, hn, hvr⟩ := hv
    rw [entries, List.map_cons, List.nodup_cons]
    refine ⟨?_, ih hvr p⟩
    intro hmem
    obtain ⟨x, hx, hr⟩ := List.mem_map.mp hmem
    obtain ⟨n, hn', hh⟩ := entries_head rest p x hx
    rw [hr, List.head?_cons, Option.some.injEq] at hh
    exact hn (hh ▸ hn')
  | dir name sub rest ihs ihr =>
    intro p
    obtain ⟨_, hn, hvs, hvr⟩ := hv
    have hu : Listed.rel ∘ Listed.under name = (fun r => name :: r) ∘ Listed.rel := rfl
    -- whatever comes first in the rest, it is not `name`
    have hrest : ∀ x ∈ entries p rest, x.rel.head? ≠ some name := by
      intro x hx h
      obtain ⟨n, hn', hh⟩ := entries_head rest p x hx
      rw [h, Option.some.injEq] at hh
      exact hn (hh ▸ hn')
    rw [entries, List.map_cons, List.map_append, List.map_map, hu, ← List.map_map,
      List.nodup_cons, List.nodup_append]
    refine ⟨?_, (ihs hvs _).map (List.cons_injective), ihr hvr p, ?_⟩
    · intro hmem
      rcases List.mem_append.mp hmem with h | h
      · obtain ⟨r, hr, he⟩ := List.mem_map.mp h
        obtain ⟨x, hx, rfl⟩ := List.mem_map.mp hr
        exact entries_rel_ne_nil hx (List.cons.inj he).2
      · obtain ⟨x, hx, he⟩ := List.mem_map.mp h
        exact hrest x hx (by rw [he, List.head?_cons])
    · intro r hr r' hr' he
      obtain ⟨r₀, _, rfl⟩ := List.mem_map.mp hr
      obtain ⟨x, hx, rfl⟩ := List.mem_map.mp hr'
      exact hrest x hx (by rw [← he, List.head?_cons])

/-- How a name is put behind a path. -/
def PathBuf.lead (p : PathBuf) : List Char :=
  if p.text = "" ∨ p.text.toList.getLast? = some '/' then p.text.toList else p.text.toList ++ ['/']

theorem toList_join (p : PathBuf) (n : String) : (p.join n).text.toList = p.lead ++ n.toList := by
  simp only [PathBuf.join, PathBuf.lead]
  split <;> simp

theorem lead_join (p : PathBuf) {n : String} (hn : n ≠ "" ∧ '/' ∉ n.toList) :
    (p.join n).lead = (p.join n).text.toList ++ ['/'] := by
  have hne : n.toList ≠ [] := fun h => hn.1 (String.toList_eq_nil_iff.mp h)
  unfold PathBuf.lead
  refine if_neg ?_
  rintro (h | h)
  · rw [← String.toList_eq_nil_iff, toList_join] at h
    exact hne (List.append_eq_nil_iff.mp h).2
  · rw [toList_join, List.getLast?_append_of_ne_nil _ hne] at h
    exact hn.2 (List.mem_of_getLast? h)

/-- The spelling of what lies below `p`: the names, with separators between. -/
theorem toList_joins (ns : List String) : ∀ (p : PathBuf) (n : String),
    (∀ m ∈ n :: ns, m ≠ "" ∧ '/' ∉ m.toList) →
      ((n :: ns).foldl PathBuf.join p).text.toList =
        p.lead ++ ['/'].intercalate ((n :: ns).map String.toList) := by
  induction ns with
  | nil =>
    intro p n _
    simp [toList_join]
  | cons n' ns ih =>
    intro p n hns
    have hn := hns n List.mem_cons_self
    rw [List.foldl_cons, ih (p.join n) n' fun m hm => hns m (List.mem_cons_of_mem _ hm),
      lead_join p hn, toList_join]
    simp [List.intercalate_cons_cons]

theorem entries_path (d : Dir) : ∀ (p : PathBuf) (x : Listed), x ∈ entries p d →
    x.shown.path = (x.rel.foldl PathBuf.join p).text := by
  induction d with
  | nil =>
    intro p x hx
    cases hx
  | leaf name len rest ih =>
    intro p x hx
    rw [entries, List.mem_cons] at hx
    rcases hx with rfl | hx
    · rfl
    · exact ih p x hx
  | dir name sub rest ihs ihr =>
    intro p x hx
    rw [entries, List.mem_cons, List.mem_append] at hx
    rcases hx with rfl | hx | hx
    · rfl
    · obtain ⟨y, hy, rfl⟩ := List.mem_map.mp hx
      exact ihs (p.join name) y hy
    · exact ihr p x hx

/-- Two entries that are spelled alike are one. -/
theorem rel_of_path {d : Dir} (hv : d.Valid) {p : PathBuf} {x y : Listed} (hx : x ∈ entries p d)
    (hy : y ∈ entries p d) (h : x.shown.path = y.shown.path) : x.rel = y.rel := by
  have spelled : ∀ z ∈ entries p d, z.shown.path.toList =
      p.lead ++ ['/'].intercalate (z.rel.map String.toList) := by
    intro z hz
    obtain ⟨n, ns, hr⟩ := List.exists_cons_of_ne_nil (entries_rel_ne_nil hz)
    rw [entries_path d p z hz, hr]
    exact toList_joins ns p n (hr ▸ entries_names hv p z hz)
  have split : ∀ z ∈ entries p d,
      (['/'].intercalate (z.rel.map String.toList)).splitOn '/' = z.rel.map String.toList := by
    intro z hz
    refine List.splitOn_intercalate '/' ?_ ?_
    · intro l hl
      obtain ⟨n, hn, rfl⟩ := List.mem_map.mp hl
      exact (entries_names hv p z hz n hn).2
    · exact fun hn => entries_rel_ne_nil hz (List.map_eq_nil_iff.mp hn)
  have hi : ['/'].intercalate (x.rel.map String.toList) =
      ['/'].intercalate (y.rel.map String.toList) := by
    have he : p.lead ++ ['/'].intercalate (x.rel.map String.toList) =
        p.lead ++ ['/'].intercalate (y.rel.map String.toList) := by
      rw [← spelled x hx, ← spelled y hy, h]
    exact List.append_cancel_left he
  have hm : x.rel.map String.toList = y.rel.map String.toList := by
    rw [← split x hx, ← split y hy, hi]
  exact List.map_injective_iff.mpr (fun _ _ he => String.toList_injective he) hm

theorem nodup_path {d : Dir} (hv : d.Valid) (p : PathBuf) :
    ((entries p d).map fun e => e.shown.path).Nodup := by
  have hrel := nodup_rel hv p
  refine List.Nodup.map_on ?_ (List.Nodup.of_map _ hrel)
  intro x hx y hy h
  exact List.inj_on_of_nodup_map hrel hx hy (rel_of_path hv hx hy h)

/-! ## Complete, or said not to be -/

/-- The finished search, as its reader takes it: sorted, without duplicates,
bounded, nothing but entries below the root that match, and all of those unless
it says `truncated`. -/
structure Search.Honest (s : Search) (wanted : String → Bool) (root : PathBuf) (d : Dir) :
    Prop where
  sorted : s.matches_.Pairwise fun a b => a.path ≤ b.path
  nodup : (s.matches_.map Match.path).Nodup
  bounded : s.matches_.length ≤ MAX_RESULTS
  sound : ∀ m ∈ s.matches_, wanted m.name = true ∧ ∃ e ∈ entries root d, e.shown = m
  complete : s.truncated = false →
    ∀ e ∈ entries root d, wanted e.shown.name = true → e.shown ∈ s.matches_

section Finished

variable {wanted : String → Bool} {root : PathBuf} {d : Dir}

theorem start_sane : Search.start.Sane := by
  constructor
  · exact Nat.zero_le _
  · intro h
    cases h

/-- The gate is open at the root. -/
theorem start_enter (body : Search → Search) : Search.start.enter body = body Search.start := rfl

/-- The finished record holds the first matches of the walk, in another order. -/
theorem finished_perm :
    (search_with wanted root d Search.start).matches_.Perm
      (((hits wanted root d).map Listed.shown).take MAX_RESULTS) := by
  have ht : Took (hits wanted root d) Search.start (scan wanted root d Search.start) :=
    scan_took d root Search.start start_sane
  have hw : (walk_search wanted root d Search.start).matches_ =
      ((hits wanted root d).map Listed.shown).take MAX_RESULTS := by
    rw [walk_search, start_enter, ht.eq]
    rfl
  rw [← hw]
  exact List.mergeSort_perm _ _

theorem finished_truncated (hv : d.Valid) :
    (search_with wanted root d Search.start).truncated = true ↔
      Beyond MAX_RESULTS (hits wanted root d) := by
  have ht : Told (hits wanted root d) Search.start (scan wanted root d Search.start) :=
    scan_told d root Search.start hv start_sane
  show (walk_search wanted root d Search.start).truncated = true ↔ _
  rw [walk_search, start_enter]
  refine ht.trans ?_
  simp [Search.start, Search.room]

theorem finished_sorted :
    (search_with wanted root d Search.start).matches_.Pairwise fun a b => a.path ≤ b.path := by
  have htrans : ∀ a b c : Match, decide (a.path ≤ b.path) = true →
      decide (b.path ≤ c.path) = true → decide (a.path ≤ c.path) = true := by
    intro a b c hab hbc
    rw [decide_eq_true_eq] at hab hbc ⊢
    exact le_trans hab hbc
  have htotal : ∀ a b : Match, (decide (a.path ≤ b.path) || decide (b.path ≤ a.path)) = true := by
    intro a b
    rw [Bool.or_eq_true, decide_eq_true_eq, decide_eq_true_eq]
    exact le_total a.path b.path
  have hs := List.pairwise_mergeSort htrans htotal
    (walk_search wanted root d Search.start).matches_
  exact hs.imp fun h => of_decide_eq_true h

theorem nodup_hits (hv : d.Valid) :
    ((hits wanted root d).map fun e => e.shown.path).Nodup :=
  (nodup_path hv root).sublist (List.filter_sublist.map _)

theorem finished_nodup (hv : d.Valid) :
    ((search_with wanted root d Search.start).matches_.map Match.path).Nodup := by
  rw [(finished_perm.map Match.path).nodup_iff]
  have hsub : ((((hits wanted root d).map Listed.shown).take MAX_RESULTS).map Match.path).Sublist
      ((hits wanted root d).map fun e => e.shown.path) := by
    have hm : ((hits wanted root d).map Listed.shown).map Match.path =
        (hits wanted root d).map fun e => e.shown.path := List.map_map
    rw [← hm]
    exact (List.take_sublist _ _).map _
  exact (nodup_hits hv).sublist hsub

theorem mem_finished {m : Match}
    (hm : m ∈ (search_with wanted root d Search.start).matches_) :
    wanted m.name = true ∧ ∃ e ∈ entries root d, e.shown = m := by
  have hmem := List.mem_of_mem_take ((finished_perm.mem_iff).mp hm)
  obtain ⟨e, he, rfl⟩ := List.mem_map.mp hmem
  obtain ⟨he, hw⟩ := List.mem_filter.mp he
  exact ⟨hw, e, he, rfl⟩

/-- All matches are listed exactly when there is room for them. -/
theorem all_finished_iff (hv : d.Valid) :
    (∀ e ∈ entries root d, wanted e.shown.name = true →
        e.shown ∈ (search_with wanted root d Search.start).matches_) ↔
      (hits wanted root d).length ≤ MAX_RESULTS := by
  have hp : (search_with wanted root d Search.start).matches_.Perm
      (((hits wanted root d).map Listed.shown).take MAX_RESULTS) := finished_perm
  constructor
  · intro hall
    have hsub : ((hits wanted root d).map fun e => e.shown.path) ⊆
        (search_with wanted root d Search.start).matches_.map Match.path := by
      intro t ht
      obtain ⟨e, he, rfl⟩ := List.mem_map.mp ht
      obtain ⟨he, hw⟩ := List.mem_filter.mp he
      exact List.mem_map_of_mem (hall e he hw)
    have hle := (List.subperm_of_subset (nodup_hits hv) hsub).length_le
    rw [List.length_map, List.length_map, hp.length_eq, List.length_take, List.length_map] at hle
    omega
  · intro hle e he hw
    rw [hp.mem_iff, List.take_of_length_le (by rwa [List.length_map])]
    exact List.mem_map_of_mem (List.mem_filter.mpr ⟨he, hw⟩)

theorem honest_iff (hv : d.Valid) :
    (search_with wanted root d Search.start).Honest wanted root d ↔
      (hits wanted root d).length ≤ MAX_RESULTS ∨ Beyond MAX_RESULTS (hits wanted root d) := by
  have ht : (search_with wanted root d Search.start).truncated = true ↔
      Beyond MAX_RESULTS (hits wanted root d) := finished_truncated hv
  constructor
  · intro h
    cases hc : (search_with wanted root d Search.start).truncated with
    | false => exact Or.inl ((all_finished_iff hv).mp (h.complete hc))
    | true => exact Or.inr (ht.mp hc)
  · intro h
    refine ⟨finished_sorted, finished_nodup hv, ?_, fun m hm => mem_finished hm, ?_⟩
    · rw [finished_perm.length_eq]
      exact List.length_take_le _ _
    · intro hc
      rcases h with hle | hb
      · exact (all_finished_iff hv).mpr hle
      · rw [ht.mpr hb] at hc
        cases hc

end Finished

/-- **When a search is complete or says that it is not.** Either all matches fit
into the bound, or one of those beyond it lies in a directory that is still open
when the record is full: the directory the last match taken lies in, or one
above it. Matches further down are dropped in silence. -/
theorem run_search_honest_iff (lower : String → String) (root : PathBuf) (q : String) (d : Dir)
    (hv : d.Valid) :
    (run_search lower root q d).Honest (matched lower (parse_search_query lower q)) root d ↔
      (hits (matched lower (parse_search_query lower q)) root d).length ≤ MAX_RESULTS ∨
        Beyond MAX_RESULTS (hits (matched lower (parse_search_query lower q)) root d) :=
  honest_iff hv

/-- A directory with a note and, next to it, a directory of notes. -/
def notes : Dir := .leaf "note.txt" 3 (.dir "old" (.leaf "Notes.TXT" 5 .nil) .nil)

theorem run_search_honest_iff_notes :
    (run_search String.toLower ⟨Path.abs ["r"], "/r", .none⟩ "*.txt" notes).Honest
      (matched String.toLower (parse_search_query String.toLower "*.txt"))
      ⟨Path.abs ["r"], "/r", .none⟩ notes :=
  (run_search_honest_iff String.toLower ⟨Path.abs ["r"], "/r", .none⟩ "*.txt" notes
    (by simp [notes, Dir.Valid, Dir.names])).mpr (Or.inl (by decide +kernel))

/-- Directories inside one another, `n` deep. -/
def nested : Nat → Dir
  | 0 => .nil
  | n + 1 => .dir "d" (nested n) .nil

theorem nested_valid (n : Nat) : (nested n).Valid := by
  induction n with
  | zero => trivial
  | succ n ih => exact ⟨by decide, by simp [Dir.names], ih, trivial⟩

/-- Each of them matches, and lies in the one before. -/
theorem nested_hits {wanted : String → Bool} (hw : wanted "d" = true) (n : Nat) :
    ∀ p : PathBuf, (hits wanted p (nested n)).map Listed.rel =
      (List.range n).map fun i => List.replicate (i + 1) "d" := by
  induction n with
  | zero =>
    intro p
    rfl
  | succ n ih =>
    intro p
    have hu : Listed.rel ∘ Listed.under "d" = (fun r => "d" :: r) ∘ Listed.rel := rfl
    rw [nested, hits_dir, if_pos hw, hits_nil, List.append_nil, List.map_cons, List.map_map, hu,
      ← List.map_map, ih, List.range_succ_eq_map, List.map_cons, List.map_map, List.map_map]
    rfl

theorem nested_rel {wanted : String → Bool} (hw : wanted "d" = true) {n : Nat} {p : PathBuf}
    {i : Nat} {x : Listed} (hx : (hits wanted p (nested n))[i]? = some x) :
    x.rel = List.replicate (i + 1) "d" := by
  have h : ((hits wanted p (nested n)).map Listed.rel)[i]? = some x.rel := by
    rw [List.getElem?_map, hx, Option.map_some]
  rw [nested_hits hw, List.getElem?_map, Option.map_eq_some_iff] at h
  obtain ⟨j, hj, hr⟩ := h
  obtain ⟨hlt, he⟩ := List.getElem?_eq_some_iff.mp hj
  rw [List.getElem_range] at he
  rw [← hr, he]

/-- Down a line of directories nothing is open below the last match. -/
theorem nested_not_beyond {wanted : String → Bool} (hw : wanted "d" = true) (n k : Nat)
    (p : PathBuf) : ¬ Beyond (k + 1) (hits wanted p (nested n)) := by
  rintro ⟨x, hx, m, hm, hp⟩
  obtain ⟨i, hi, rfl⟩ := List.mem_drop_iff_getElem.mp hx
  have hi' : k + 1 + i < (hits wanted p (nested n)).length := by omega
  have hxr := nested_rel hw (List.getElem?_eq_getElem hi')
  have hlen := hp.length_le
  rw [hxr, nested_rel hw hm, List.length_dropLast, List.length_dropLast, List.length_replicate,
    List.length_replicate] at hlen
  omega

/-- One directory more than the search has room for: the last is not listed, and
not accounted for. -/
theorem nested_not_honest :
    (nested (MAX_RESULTS + 1)).Valid ∧
    ¬ (run_search String.toLower ⟨Path.abs ["r"], "/r", .none⟩ "d" (nested (MAX_RESULTS + 1))).Honest
      (matched String.toLower (parse_search_query String.toLower "d"))
      ⟨Path.abs ["r"], "/r", .none⟩ (nested (MAX_RESULTS + 1)) := by
  have hw : matched String.toLower (parse_search_query String.toLower "d") "d" = true := by
    decide +kernel
  refine ⟨nested_valid _, ?_⟩
  intro h
  rcases (honest_iff (nested_valid _)).mp h with hle | hb
  · have hlen := congrArg List.length
      (nested_hits hw (MAX_RESULTS + 1) ⟨Path.abs ["r"], "/r", .none⟩)
    rw [List.length_map, List.length_map, List.length_range] at hlen
    omega
  · exact nested_not_beyond hw (MAX_RESULTS + 1) 999 _ hb

end WebDavs.Mover
