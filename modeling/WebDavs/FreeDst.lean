/-
Where `free_dst` lands.

It looks for a name with `Path::exists`, which follows links, so that a link that
leads nowhere passes for a free name; and when all the names it tries are taken it
gives up and returns the last of them. `lands_iff` says when neither happens.
What it returns otherwise is a name of the right form: split at the last dot and
put together with a number, a name splits again into the number's stem and the same
extension.
-/
import WebDavs.Handlers
import WebDavs.Cut

set_option autoImplicit false

namespace WebDavs.Mover

open WebDavs.Posix

/-! ## Numbered names -/

section Names

variable {s e : List Char}

/-- A name is split at its last dot, unless that is the first character. -/
theorem splitDot_append (hs : s ≠ []) (he : '.' ∉ e) :
    Path.splitDot (s ++ '.' :: e) = (s, some e) := by
  have hrev : (s ++ '.' :: e).reverse = e.reverse ++ '.' :: s.reverse := by simp
  have hafter : (s ++ '.' :: e).reverse.takeWhile (· ≠ '.') = e.reverse := by
    rw [hrev]
    exact Cut.takeWhile_ne (by simpa using he) (.inr rfl)
  have hbefore : (s ++ '.' :: e).reverse.dropWhile (· ≠ '.') = '.' :: s.reverse := by
    rw [hrev]
    exact Cut.dropWhile_ne (by simpa using he) (.inr rfl)
  unfold Path.splitDot
  simp only [hafter, hbefore, List.reverse_cons, List.reverse_reverse, List.dropLast_concat,
    if_neg hs]

theorem splitDot_plain (h : '.' ∉ s.tail) : Path.splitDot s = (s, none) := by
  unfold Path.splitDot
  rcases Cut.dropWhile_ne_cases s.reverse '.' with ⟨-, hd⟩ | ⟨a, r, -, hs, -, hd⟩
  · simp only [hd, List.reverse_nil, List.dropLast_nil, if_true]
  · -- the only dot is the first character
    have hs' : s = r.reverse ++ '.' :: a.reverse := by
      rw [← List.reverse_reverse s, hs]
      simp
    have hr : r = [] := by
      by_contra hne
      rw [hs', List.tail_append_of_ne_nil (by simpa using hne)] at h
      exact h (List.mem_append_right _ List.mem_cons_self)
    simp only [hd, hr, List.reverse_cons, List.reverse_nil, List.nil_append, List.dropLast_singleton,
      if_true]

theorem splitDot_cases (s : List Char) :
    ('.' ∉ s.tail ∧ Path.splitDot s = (s, none)) ∨
      ∃ a e, a ≠ [] ∧ '.' ∉ e ∧ s = a ++ '.' :: e ∧ Path.splitDot s = (a, some e) := by
  by_cases h : '.' ∈ s.tail
  · right
    rcases Cut.dropWhile_ne_cases s.reverse '.' with ⟨hno, -⟩ | ⟨e, r, he, hs, -, -⟩
    · exact absurd (List.mem_of_mem_tail h) (by simpa using hno)
    · have hs' : s = r.reverse ++ '.' :: e.reverse := by
        rw [← List.reverse_reverse s, hs]
        simp
      have hr : r.reverse ≠ [] := by
        intro hr
        rw [hs', hr, List.nil_append, List.tail_cons] at h
        exact he (by simpa using h)
      refine ⟨r.reverse, e.reverse, hr, by simpa using he, hs', ?_⟩
      rw [hs']
      exact splitDot_append hr (by simpa using he)
  · exact .inl ⟨h, splitDot_plain h⟩

theorem dot_not_mem_digits (i : Nat) : '.' ∉ (toString i).toList := by
  intro h
  rw [Nat.toString_eq_repr, Nat.toList_repr] at h
  exact absurd (Nat.isDigit_of_mem_toDigits (by omega) (by omega) h) (by decide)

end Names

/-- The extension as it is put behind a name. -/
def dotted (e : Option String) : String :=
  match e with
  | some e => "." ++ e
  | none => ""

/-- A number behind the stem leaves the extension as it is. -/
theorem numbered_name {p q : Path} {n : String} (hp : p.file_name = some n) (i : Nat) :
    (q.child (p.file_stem ++ "_" ++ toString i ++ dotted p.extension)).file_stem
        = p.file_stem ++ "_" ++ toString i ∧
      (q.child (p.file_stem ++ "_" ++ toString i ++ dotted p.extension)).extension
        = p.extension := by
  unfold Path.file_stem Path.extension
  simp only [Path.file_name_child, hp]
  rcases splitDot_cases n.toList with ⟨htail, hs⟩ | ⟨a, e, ha, he, -, hs⟩
  · rw [hs]
    have hname : '.' ∉ (n.toList ++ '_' :: (toString i).toList).tail := by
      cases hn : n.toList with
      | nil => simpa using dot_not_mem_digits i
      | cons c cs =>
          rw [hn, List.tail_cons] at htail
          rw [List.cons_append, List.tail_cons, List.mem_append, List.mem_cons]
          rintro (h | h | h)
          · exact htail h
          · cases h
          · exact dot_not_mem_digits i h
    have hlist : (String.ofList n.toList ++ "_" ++ toString i ++ dotted none).toList
        = n.toList ++ '_' :: (toString i).toList := by
      simp [dotted]
    simp only [Option.map_none]
    rw [hlist, splitDot_plain hname]
    refine ⟨?_, rfl⟩
    rw [← hlist, String.ofList_toList]
    simp [dotted]
  · rw [hs]
    simp only [Option.map_some]
    have hlist : (String.ofList a ++ "_" ++ toString i ++ dotted (some (String.ofList e))).toList
        = (a ++ '_' :: (toString i).toList) ++ '.' :: e := by
      simp [dotted]
    rw [hlist, splitDot_append (by simp) he]
    refine ⟨?_, rfl⟩
    apply String.toList_injective
    simp

/-! ## Where it lands -/

/-- `r` is `dst`, or has its stem with a number and its extension. -/
def Renumbers (dst r : PathBuf) : Prop :=
  r = dst ∨ (dst.path.file_name ≠ none ∧ r.path.extension = dst.path.extension ∧
    ∃ i : Nat, r.path.file_stem = dst.path.file_stem ++ "_" ++ toString i)

/-- What `free_dst` is to return: a free name for `dst` in its parent directory. -/
structure Lands (k : Kernel) (t : FileTree Bytes) (dst r : PathBuf) : Prop where
  free : k.lstat t r.path = none
  parent : r.path.parent = dst.path.parent
  name : Renumbers dst r

/-- One of the names that are tried is free, and every one before it leads
somewhere. Where `dst` has no file name there are no others to try. -/
def FreeFirst (k : Kernel) (t : FileTree Bytes) (dst : PathBuf) : Prop :=
  ∃ pre c post, dst :: numbered dst = pre ++ c :: post ∧
    (∀ p ∈ pre, k.exists_ t p.full = true) ∧ k.lstat t c.path = none ∧
    (pre = [] ∨ dst.path.file_name ≠ none)

section Landing

variable {k : Kernel} {t : FileTree Bytes} {dst r : PathBuf}

theorem exists_of_no_entry {p : Path} (h : k.lstat t p = none) : k.exists_ t p = false := by
  rw [Kernel.exists_, Kernel.stat_of_lstat_none h]
  rfl

theorem full_of_no_entry {p : PathBuf} (h : k.lstat t p.path = none) :
    k.exists_ t p.full = false := by
  rw [Bool.eq_false_iff]
  intro hx
  exact absurd (Kernel.exists_of_tailed hx) (by simp [exists_of_no_entry h])

/-- `free_dst` returns the first name that leads nowhere, or a name that leads
somewhere. -/
theorem free_dst_cases (k : Kernel) (t : FileTree Bytes) (dst : PathBuf) :
    (∃ pre c post, dst :: numbered dst = pre ++ c :: post ∧
        (∀ p ∈ pre, k.exists_ t p.full = true) ∧ k.exists_ t c.full = false ∧
        free_dst k t dst = c) ∨
      k.exists_ t (free_dst k t dst).full = true ∧
        ∀ p ∈ dst :: numbered dst, k.exists_ t p.full = true := by
  unfold free_dst
  by_cases hx : k.exists_ t dst.full = true
  · rw [if_pos hx]
    cases hf : (numbered dst).find? fun cand => !k.exists_ t cand.full with
    | some c =>
        left
        obtain ⟨hc, pre, post, hsplit, hpre⟩ := List.find?_eq_some_iff_append.mp hf
        refine ⟨dst :: pre, c, post, by rw [hsplit, List.cons_append], ?_, by simpa using hc, rfl⟩
        intro p hp
        rcases List.mem_cons.mp hp with rfl | hp
        · exact hx
        · simpa using hpre p hp
    | none =>
        right
        have hall : ∀ p ∈ numbered dst, k.exists_ t p.full = true := by
          intro p hp
          simpa using List.find?_eq_none.mp hf p hp
        constructor
        · dsimp only
          cases hl : (numbered dst).getLast? with
          | none => exact hx
          | some c => exact hall c (List.mem_of_getLast? hl)
        · intro p hp
          rcases List.mem_cons.mp hp with rfl | hp
          · exact hx
          · exact hall p hp
  · rw [if_neg hx]
    refine .inl ⟨[], dst, numbered dst, rfl, ?_, by simpa using hx, rfl⟩
    intro p hp
    cases hp

/-- The names that are tried for a `dst` with a file name are in its parent
directory and of the right form. -/
theorem numbered_spec (hn : dst.path.file_name ≠ none) (hr : r ∈ numbered dst) :
    r.path.parent = dst.path.parent ∧ Renumbers dst r := by
  obtain ⟨n, hn'⟩ := Option.ne_none_iff_exists'.mp hn
  unfold numbered at hr
  obtain ⟨i, -, rfl⟩ := List.mem_map.mp hr
  have hpar : dst.parent_or_empty.path = ⟨dst.path.root, dst.path.comps.dropLast⟩ ∧
      dst.path.parent = some ⟨dst.path.root, dst.path.comps.dropLast⟩ := by
    have hp : dst.path.parent = some ⟨dst.path.root, dst.path.comps.dropLast⟩ := by
      rw [Path.eq_child_of_file_name hn', Path.parent_child]
      simp [Path.child]
    unfold PathBuf.parent_or_empty
    rw [hp]
    exact ⟨rfl, rfl⟩
  obtain ⟨hstem, hext⟩ := numbered_name (q := dst.parent_or_empty.path) hn' i
  refine ⟨?_, .inr ⟨hn, hext, i, hstem⟩⟩
  show (dst.parent_or_empty.path.child _).parent = _
  rw [Path.parent_child, hpar.1, hpar.2]

/-- Where there is no file name, no name that is tried is a name of `dst`. -/
theorem not_renumbers (hn : dst.path.file_name = none) (hr : r ∈ numbered dst) :
    ¬ Renumbers dst r := by
  rintro (rfl | ⟨hne, -⟩)
  · unfold numbered at hr
    obtain ⟨i, -, hi⟩ := List.mem_map.mp hr
    rw [← hi] at hn
    simp [PathBuf.join] at hn
  · exact hne hn

/-- **`free_dst` lands where it should** exactly when it comes to a free name before
any link that leads nowhere, and before its names run out. -/
theorem lands_iff (k : Kernel) (t : FileTree Bytes) (dst : PathBuf) :
    Lands k t dst (free_dst k t dst) ↔ FreeFirst k t dst := by
  constructor
  · intro h
    rcases free_dst_cases k t dst with ⟨pre, c, post, hsplit, hpre, -, hc⟩ | ⟨hx, -⟩
    · rw [hc] at h
      refine ⟨pre, c, post, hsplit, hpre, h.free, ?_⟩
      -- an original name that is taken leaves only the numbered ones
      cases pre with
      | nil => exact .inl rfl
      | cons p pre =>
          right
          intro hn
          have hmem : c ∈ numbered dst := by
            rw [List.cons_append] at hsplit
            rw [(List.cons.inj hsplit).2]
            exact List.mem_append_right _ List.mem_cons_self
          exact not_renumbers hn hmem h.name
    · rw [full_of_no_entry h.free] at hx
      cases hx
  · rintro ⟨pre, c, post, hsplit, hpre, hfree, hname⟩
    have hc : free_dst k t dst = c := by
      have hxc := full_of_no_entry hfree
      rcases free_dst_cases k t dst with ⟨pre', c', post', hsplit', hpre', hxc', hc'⟩ | ⟨-, hall⟩
      · -- both are the first name that leads nowhere
        rw [hc']
        rw [hsplit'] at hsplit
        rcases List.append_eq_append_iff.mp hsplit with ⟨as, h₁, h₂⟩ | ⟨as, h₁, h₂⟩
        · cases as with
          | nil => exact (List.cons.inj h₂).1
          | cons a as =>
              rw [(List.cons.inj h₂).1] at hxc'
              have := hpre a (by rw [h₁]; exact List.mem_append_right _ List.mem_cons_self)
              rw [this] at hxc'
              cases hxc'
        · cases as with
          | nil => exact (List.cons.inj h₂).1.symm
          | cons a as =>
              rw [(List.cons.inj h₂).1] at hxc
              have := hpre' a (by rw [h₁]; exact List.mem_append_right _ List.mem_cons_self)
              rw [this] at hxc
              cases hxc
      · have hmem : c ∈ dst :: numbered dst := by
          rw [hsplit]
          exact List.mem_append_right _ List.mem_cons_self
        rw [hall c hmem] at hxc
        cases hxc
    rw [hc]
    -- the first name is the one that was asked for
    cases pre with
    | nil =>
        rw [List.nil_append] at hsplit
        obtain rfl := (List.cons.inj hsplit).1
        exact ⟨hfree, rfl, .inl rfl⟩
    | cons p pre =>
        have hmem : c ∈ numbered dst := by
          rw [List.cons_append] at hsplit
          rw [(List.cons.inj hsplit).2]
          exact List.mem_append_right _ List.mem_cons_self
        obtain ⟨hparent, hform⟩ := numbered_spec (hname.resolve_left (by simp)) hmem
        exact ⟨hfree, hparent, hform⟩

end Landing

end WebDavs.Mover
