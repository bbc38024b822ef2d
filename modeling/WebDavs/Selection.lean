/-
The selection on the page: `selected`, `sel`, and the rows that show it.

What is selected is kept three times: in the map `selected`, in the class of each row,
and in its checkbox. The map is what Delete, Move and Copy go by, the class is what the
user sees. A handler that is given one row changes the class of that row alone, so two
rows with one path come apart, and a click on the empty area changes the classes alone.
-/
import Mathlib.Data.List.Basic

set_option autoImplicit false

namespace WebDavs.Selection

/-! ## The page -/

/-- The two panels. -/
inductive Panel where
  | A
  | B
deriving DecidableEq, Repr

/-- What is kept of a selected row. -/
structure Item where
  path : String
  panel : Panel
  name : String
deriving DecidableEq, Repr

/-- A row. `selected` is its class, `checked` its checkbox. -/
structure Row where
  path : String
  name : String
  is_dir : Bool
  link : Bool
  selected : Bool
  checked : Bool
deriving DecidableEq, Repr

/-- The text of a row's name: a link has an arrow. -/
def Row.nm (r : Row) : String := if r.link then r.name ++ " →" else r.name

/-- `replace(/ →$/, '')`. -/
def strip_arrow (t : String) : String :=
  match t.toList.reverse with
  | '→' :: ' ' :: rest => String.ofList rest.reverse
  | _ => t

/-- What the handlers of a row pass on. -/
def Row.item (r : Row) (p : Panel) : Item := { path := r.path, panel := p, name := r.name }

/-- What `/api/ls` answers. -/
structure Entry where
  name : String
  is_dir : Bool
  link : Bool
deriving DecidableEq, Repr

/-- The listing of a directory. -/
structure Listing where
  path : String
  entries : List Entry
deriving DecidableEq, Repr

/-- The variables of the script and the rows of both panels. `selected` is a `Map`: its
entries in the order in which they were made. -/
structure State where
  rows : Panel → List Row
  selected : List (String × Item)
  sel : Option Item
  selAnchor : Option (String × Panel)

/-- The page before anything is listed. -/
def State.init : State where
  rows _ := []
  selected := []
  sel := none
  selAnchor := none

/-- `Map.has`. -/
def has (m : List (String × Item)) (key : String) : Bool := m.any fun e => e.1 = key

/-- `Map.delete`. -/
def delete (m : List (String × Item)) (key : String) : List (String × Item) :=
  m.filter fun e => e.1 ≠ key

namespace State

variable (s : State)

/-- The row at an index of a panel. -/
def row (p : Panel) (i : Nat) : Option Row := (s.rows p)[i]?

/-- Every row, rewritten. -/
def map_rows (f : Panel → Nat → Row → Row) : State :=
  { s with rows := fun p => (s.rows p).mapIdx (f p) }

/-- `row.classList.add` and `remove` of `selected`, on one row. -/
def set_class (p : Panel) (i : Nat) (b : Bool) : State :=
  s.map_rows fun q j r => if q = p ∧ j = i then { r with selected := b } else r

/-- The class taken off every row. -/
def clear_classes : State := s.map_rows fun _ _ r => { r with selected := false }

/-- `updateSelStatus`, less the text of the status line. -/
def updateSelStatus : State :=
  s.map_rows fun _ _ r => { r with checked := has s.selected r.path }

/-! ## The handlers -/

/-- `selectRow`, on the row at `i`. -/
def selectRow (p : Panel) (i : Nat) (it : Item) (additive : Bool) : State :=
  let s₁ :=
    if additive then
      let s₀ :=
        if has s.selected it.path then
          { s with selected := delete s.selected it.path }.set_class p i false
        else { s with selected := s.selected ++ [(it.path, it)] }.set_class p i true
      { s₀ with sel := s₀.selected.getLast?.map Prod.snd }
    else
      { ({ s with selected := [(it.path, it)] }.clear_classes.set_class p i true) with
        sel := some it }
  { s₁ with selAnchor := some (it.path, it.panel) }.updateSelStatus

/-- The rows between which a Shift click selects: from the anchor, or the first row if
the anchor is not in this panel, to the row at `i`. -/
def span (p : Panel) (i : Nat) : Nat × Nat :=
  let anchorIdx :=
    match s.selAnchor with
    | some (path, q) =>
      if q = p then ((s.rows p).findIdx? fun r => r.path = path).getD 0 else 0
    | none => 0
  (min anchorIdx i, max anchorIdx i)

/-- One turn of the loop in `selectRange`. -/
def select_one (p : Panel) (i : Nat) : State :=
  match s.row p i with
  | none => s
  | some r =>
    let s₁ :=
      if has s.selected r.path then s
      else
        { s with selected := s.selected ++
            [(r.path, { path := r.path, panel := p, name := strip_arrow r.nm })] }
    s₁.set_class p i true

/-- `selectRange`, on the row at `i`: it is in the panel, as it has just been clicked. -/
def selectRange (p : Panel) (i : Nat) (it : Item) : State :=
  let (lo, hi) := s.span p i
  let s₁ := (List.range' lo (hi + 1 - lo)).foldl (fun s j => s.select_one p j) s
  { s₁ with sel := some it }.updateSelStatus

/-- `clearSelection`. -/
def clearSelection : State :=
  { { s with selected := [] }.clear_classes with sel := none }.updateSelStatus

/-- `selectedItems`. -/
def selectedItems : List Item :=
  if s.selected ≠ [] then s.selected.map Prod.snd else s.sel.toList

/-- `replace(/\/+$/, '')`. -/
def strip_slashes (t : String) : String :=
  String.ofList (t.toList.reverse.dropWhile (· = '/')).reverse

/-- `renderList`, less the path box and the label. -/
def renderList (p : Panel) (j : Listing) : State :=
  let rows := j.entries.map fun e =>
    let path := strip_slashes j.path ++ "/" ++ e.name
    { path := path, name := e.name, is_dir := e.is_dir, link := e.link,
      selected := has s.selected path, checked := has s.selected path }
  { s with rows := fun q => if q = p then rows else s.rows q }

end State

/-! ## Events -/

/-- What the user, or a handler that is done, brings about. `ctrl` is also the Meta key. -/
inductive Event where
  | click (p : Panel) (i : Nat) (shift ctrl : Bool)
  | checkbox (p : Panel) (i : Nat)
  | contextmenu (p : Panel) (i : Nat)
  | empty_area (p : Panel)
  | clearSelection
  | renderList (p : Panel) (j : Listing)
deriving Repr

/-- The handlers. A click where no row is does nothing; a plain click on a directory
opens it, and its listing comes as an event of its own. -/
def step (s : State) : Event → State
  | .click p i shift ctrl =>
    match s.row p i with
    | none => s
    | some r =>
      if shift then s.selectRange p i (r.item p)
      else if ctrl then s.selectRow p i (r.item p) true
      else if r.is_dir then s
      else s.selectRow p i (r.item p) false
  | .checkbox p i =>
    match s.row p i with
    | none => s
    | some r => s.selectRow p i (r.item p) true
  | .contextmenu p i =>
    match s.row p i with
    | none => s
    | some r => if has s.selected r.path then s else s.selectRow p i (r.item p) false
  | .empty_area _ => { s.clear_classes with sel := none }
  | .clearSelection => s.clearSelection
  | .renderList p j => s.renderList p j

/-- A run, from any state. -/
def run (s : State) (es : List Event) : State := es.foldl step s

/-! ## What the user sees -/

/-- What is highlighted is what will be acted on. -/
structure Shown (s : State) : Prop where
  class_iff : ∀ p i r, s.row p i = some r → (r.selected = true ↔ has s.selected r.path = true)
  sel_none : s.sel = none ↔ s.selected = []
  sel_has : ∀ it, s.sel = some it → has s.selected it.path = true

/-- Each key is the path of its item. -/
def Keyed (s : State) : Prop := ∀ e ∈ s.selected, e.2.path = e.1

/-- The row at `i` is the only one that shows its path. -/
def Alone (s : State) (p : Panel) (i : Nat) (r : Row) : Prop :=
  ∀ q j r', s.row q j = some r' → r'.path = r.path → q = p ∧ j = i

/-- The paths of the rows from `lo` on, `n` of them. -/
def Between (s : State) (p : Panel) (lo n : Nat) (k : String) : Prop :=
  ∃ m r, lo ≤ m ∧ m < lo + n ∧ s.row p m = some r ∧ r.path = k

/-- Whether the handler of an event changes the class of every row whose path it selects
or deselects. -/
def MarksAll (s : State) : Event → Prop
  | .click p i shift ctrl =>
    ∀ r, s.row p i = some r →
      if shift then
        let (lo, hi) := s.span p i
        ∀ q j r', s.row q j = some r' → has s.selected r'.path = false →
          Between s p lo (hi + 1 - lo) r'.path → q = p ∧ lo ≤ j ∧ j ≤ hi
      else if ctrl then Alone s p i r
      else if r.is_dir then True
      else Alone s p i r
  | .checkbox p i => ∀ r, s.row p i = some r → Alone s p i r
  | .contextmenu p i =>
    ∀ r, s.row p i = some r → has s.selected r.path = false → Alone s p i r
  | .empty_area _ => s.selected = []
  | .clearSelection => True
  | .renderList _ _ => True

/-! ## The map -/

theorem has_iff {m : List (String × Item)} {k : String} :
    has m k = true ↔ ∃ e ∈ m, e.1 = k := by
  simp only [has, List.any_eq_true, decide_eq_true_eq]

@[simp] theorem has_nil (k : String) : has [] k = false := rfl

@[simp] theorem has_singleton (k x : String) (it : Item) : has [(k, it)] x = decide (k = x) := by
  simp only [has, List.any_cons, List.any_nil, Bool.or_false]

@[simp] theorem has_append (m m' : List (String × Item)) (k : String) :
    has (m ++ m') k = (has m k || has m' k) := List.any_append

@[simp] theorem has_delete (m : List (String × Item)) (k x : String) :
    has (delete m k) x = (decide (x ≠ k) && has m x) := by
  rw [Bool.eq_iff_iff, Bool.and_eq_true, has_iff, has_iff, decide_eq_true_eq]
  simp only [delete, List.mem_filter, decide_eq_true_eq]
  constructor
  · rintro ⟨e, ⟨he, hne⟩, rfl⟩
    exact ⟨hne, e, he, rfl⟩
  · rintro ⟨hne, e, he, rfl⟩
    exact ⟨e, ⟨he, hne⟩, rfl⟩

/-! ## The rows after a handler -/

@[simp] theorem row_map_rows (s : State) (f : Panel → Nat → Row → Row) (p : Panel) (i : Nat) :
    (s.map_rows f).row p i = (s.row p i).map (f p i) := List.getElem?_mapIdx

@[simp] theorem selected_map_rows (s : State) (f : Panel → Nat → Row → Row) :
    (s.map_rows f).selected = s.selected := rfl

@[simp] theorem sel_map_rows (s : State) (f : Panel → Nat → Row → Row) :
    (s.map_rows f).sel = s.sel := rfl

/-- The checkboxes are not looked at. -/
theorem shown_update (s : State) : Shown s.updateSelStatus ↔ Shown s := by
  constructor
  · rintro ⟨hclass, hnone, hhas⟩
    refine ⟨?_, hnone, hhas⟩
    intro p i r hr
    have hrow : s.updateSelStatus.row p i = some { r with checked := has s.selected r.path } := by
      rw [State.updateSelStatus, row_map_rows, hr, Option.map_some]
    exact hclass p i { r with checked := has s.selected r.path } hrow
  · rintro ⟨hclass, hnone, hhas⟩
    refine ⟨?_, hnone, hhas⟩
    intro p i r' hr'
    rw [State.updateSelStatus, row_map_rows, Option.map_eq_some_iff] at hr'
    obtain ⟨r, hr, rfl⟩ := hr'
    exact hclass p i r hr

/-- One row toggled, in the map and in its class. -/
theorem class_toggle {s : State} (s' : State) (hs : Shown s) {p : Panel} {i : Nat} {r : Row}
    (hr : s.row p i = some r)
    (hrow : ∀ q j, s'.row q j = (s.row q j).map fun x =>
      if q = p ∧ j = i then { x with selected := !has s.selected r.path } else x)
    (hm : ∀ k, has s'.selected k =
      if k = r.path then !has s.selected r.path else has s.selected k) :
    (∀ q j x, s'.row q j = some x → (x.selected = true ↔ has s'.selected x.path = true)) ↔
      Alone s p i r := by
  constructor
  · intro hclass q j x hx hpath
    by_contra hne
    have hx' : s'.row q j = some x := by
      rw [hrow, hx, Option.map_some, if_neg hne]
    have hnew := hclass q j x hx'
    have hold := hs.class_iff q j x hx
    -- the map has changed for this path, the class has not
    rw [hm, if_pos hpath] at hnew
    rw [hpath] at hold
    rw [hold] at hnew
    simp at hnew
  · intro halone q j x' hx'
    rw [hrow, Option.map_eq_some_iff] at hx'
    obtain ⟨x, hx, rfl⟩ := hx'
    by_cases hat : q = p ∧ j = i
    · have hxr : x = r := by
        rw [hat.1, hat.2, hr] at hx
        exact (Option.some.inj hx).symm
      simp only [if_pos hat, hm, hxr, if_true]
    · have hpath : x.path ≠ r.path := fun h => hat (halone q j x hx h)
      simp only [if_neg hat, hm, if_neg hpath]
      exact hs.class_iff q j x hx

/-- What `sel` is set to after a toggle. -/
theorem sel_last {m : List (String × Item)} (hm : ∀ e ∈ m, e.2.path = e.1) :
    (m.getLast?.map Prod.snd = none ↔ m = []) ∧
      ∀ it, m.getLast?.map Prod.snd = some it → has m it.path = true := by
  constructor
  · rw [Option.map_eq_none_iff, List.getLast?_eq_none_iff]
  · intro it hit
    obtain ⟨e, he, rfl⟩ := Option.map_eq_some_iff.mp hit
    have hmem := List.mem_of_getLast? he
    exact has_iff.mpr ⟨e, hmem, (hm e hmem).symm⟩

theorem keyed_delete {s : State} (hk : Keyed s) (k : String) :
    ∀ e ∈ delete s.selected k, e.2.path = e.1 :=
  fun e he => hk e (List.mem_filter.mp he).1

theorem keyed_append {s : State} (hk : Keyed s) (it : Item) :
    ∀ e ∈ s.selected ++ [(it.path, it)], e.2.path = e.1 := by
  intro e he
  rcases List.mem_append.mp he with h | h
  · exact hk e h
  · rw [List.mem_singleton.mp h]

/-- A toggle keeps what is shown if and only if no other row shows the path. -/
theorem selectRow_additive {s : State} (hs : Shown s) (hk : Keyed s) {p : Panel} {i : Nat} {r : Row}
    (hr : s.row p i = some r) :
    (Shown (s.selectRow p i (r.item p) true) ↔ Alone s p i r) ∧
      Keyed (s.selectRow p i (r.item p) true) := by
  unfold State.selectRow
  rw [if_pos rfl]
  have hpath : (r.item p).path = r.path := rfl
  by_cases hhas : has s.selected r.path = true
  · simp only [hpath, hhas, if_true]
    have hkeyed := keyed_delete hk r.path
    refine ⟨?_, hkeyed⟩
    rw [shown_update]
    have hclass := class_toggle
      ({ s with selected := delete s.selected r.path }.set_class p i false) hs hr
      (fun q j => by rw [State.set_class, row_map_rows, hhas]; rfl)
      (fun k => by
        show has (delete s.selected r.path) k = _
        rw [has_delete]
        by_cases hkr : k = r.path
        · simp [hkr, hhas]
        · simp [hkr])
    obtain ⟨hnone, hsome⟩ := sel_last hkeyed
    exact ⟨fun h => hclass.mp h.class_iff, fun h => ⟨hclass.mpr h, hnone, hsome⟩⟩
  · have hfalse : has s.selected r.path = false := by simpa using hhas
    simp only [hpath, hfalse, Bool.false_eq_true, if_false]
    have hkeyed := keyed_append hk (r.item p)
    refine ⟨?_, hkeyed⟩
    rw [shown_update]
    have hclass := class_toggle
      ({ s with selected := s.selected ++ [(r.path, r.item p)] }.set_class p i true) hs hr
      (fun q j => by rw [State.set_class, row_map_rows, hfalse]; rfl)
      (fun k => by
        show has (s.selected ++ [(r.path, r.item p)]) k = _
        rw [has_append, has_singleton]
        by_cases hkr : k = r.path
        · simp [hkr, hfalse]
        · have hrk : r.path ≠ k := fun h => hkr h.symm
          simp [hkr, hrk])
    obtain ⟨hnone, hsome⟩ := sel_last hkeyed
    exact ⟨fun h => hclass.mp h.class_iff, fun h => ⟨hclass.mpr h, hnone, hsome⟩⟩

/-- The same when the row becomes the only one selected. -/
theorem selectRow_single (s : State) {p : Panel} {i : Nat} {r : Row} (hr : s.row p i = some r) :
    (Shown (s.selectRow p i (r.item p) false) ↔ Alone s p i r) ∧
      Keyed (s.selectRow p i (r.item p) false) := by
  unfold State.selectRow
  rw [if_neg Bool.false_ne_true]
  have hkeyed : ∀ e ∈ [((r.item p).path, r.item p)], e.2.path = e.1 := by
    intro e he
    rw [List.mem_singleton.mp he]
  refine ⟨?_, hkeyed⟩
  rw [shown_update]
  have hpath : (r.item p).path = r.path := rfl
  -- taking the class from every row and giving it to one: only that one has it
  have hrow : ∀ q j, (({ s with selected := [((r.item p).path, r.item p)] }.clear_classes).set_class
      p i true).row q j = (s.row q j).map fun x =>
        { x with selected := decide (q = p ∧ j = i) } := by
    intro q j
    rw [State.set_class, row_map_rows, State.clear_classes, row_map_rows, Option.map_map]
    refine Option.map_congr ?_
    intro x _
    by_cases hat : q = p ∧ j = i
    · simp [hat]
    · simp [hat]
  constructor
  · intro h q j x hx hxr
    have hnew := h.class_iff q j { x with selected := decide (q = p ∧ j = i) }
      ((hrow q j).trans (by rw [hx]; rfl))
    have hin : has [((r.item p).path, r.item p)] x.path = true := by
      rw [has_singleton, hpath, hxr]
      exact decide_eq_true rfl
    exact of_decide_eq_true (hnew.mpr hin)
  -- with no other row of this path, the class and the map say the same
  · intro halone
    refine ⟨?_, ?_, ?_⟩
    · intro q j x' hx'
      obtain ⟨x, hx, rfl⟩ := Option.map_eq_some_iff.mp ((hrow q j).symm.trans hx')
      show decide (q = p ∧ j = i) = true ↔ has [((r.item p).path, r.item p)] x.path = true
      rw [has_singleton, hpath, decide_eq_true_eq, decide_eq_true_eq]
      constructor
      · rintro ⟨rfl, rfl⟩
        rw [hr] at hx
        rw [Option.some.inj hx]
      · intro hxr
        exact halone q j x hx hxr.symm
    · constructor
      · intro h
        cases h
      · intro h
        cases h
    · intro it hit
      rw [← Option.some.inj hit]
      exact has_iff.mpr ⟨_, List.mem_singleton.mpr rfl, rfl⟩

/-! ## Ranges -/

theorem row_select_one (s : State) (p q : Panel) (i j : Nat) :
    (s.select_one p i).row q j = (s.row q j).map fun x =>
      if q = p ∧ j = i then { x with selected := true } else x := by
  unfold State.select_one
  cases hr : s.row p i with
  | none =>
      by_cases hat : q = p ∧ j = i
      · simp [hat, hr]
      · simp [hat]
  | some r =>
      by_cases hhas : has s.selected r.path = true
      · simp only [hhas, if_true, State.set_class, row_map_rows]
      · simp only [hhas, Bool.false_eq_true, if_false, State.set_class, row_map_rows]
        rfl

theorem has_select_one (s : State) (p : Panel) (i : Nat) (k : String) :
    has (s.select_one p i).selected k = true ↔
      has s.selected k = true ∨ ∃ r, s.row p i = some r ∧ r.path = k := by
  unfold State.select_one
  cases hr : s.row p i with
  | none => simp
  | some r =>
      by_cases hhas : has s.selected r.path = true
      · simp only [hhas, if_true, State.set_class, selected_map_rows, Option.some.injEq,
          exists_eq_left']
        constructor
        · exact Or.inl
        · rintro (h | rfl)
          · exact h
          · exact hhas
      · simp only [hhas, Bool.false_eq_true, if_false, State.set_class, selected_map_rows,
          Option.some.injEq, exists_eq_left', has_append, has_singleton, Bool.or_eq_true,
          decide_eq_true_eq]

theorem keyed_select_one {s : State} (hk : Keyed s) (p : Panel) (i : Nat) :
    Keyed (s.select_one p i) := by
  unfold State.select_one
  cases hr : s.row p i with
  | none => exact hk
  | some r =>
      by_cases hhas : has s.selected r.path = true
      · simp only [hhas, if_true]
        exact hk
      · simp only [hhas, Bool.false_eq_true, if_false]
        exact keyed_append hk { path := r.path, panel := p, name := strip_arrow r.nm }

/-- The loop of `selectRange`: the rows it has passed have the class, their paths are in
the map. -/
theorem select_span (s : State) (p : Panel) (lo n : Nat) :
    let s' := (List.range' lo n).foldl (fun s j => s.select_one p j) s
    (∀ q j, s'.row q j = (s.row q j).map fun x =>
        if q = p ∧ lo ≤ j ∧ j < lo + n then { x with selected := true } else x) ∧
      (∀ k, has s'.selected k = true ↔ has s.selected k = true ∨ Between s p lo n k) ∧
      (Keyed s → Keyed s') := by
  induction n with
  | zero =>
      refine ⟨?_, ?_, fun hk => hk⟩
      · intro q j
        have hout : ¬ (q = p ∧ lo ≤ j ∧ j < lo + 0) := by omega
        simp only [hout, if_false, Option.map_id', List.range'_zero, List.foldl_nil]
      · intro k
        constructor
        · exact Or.inl
        · rintro (h | ⟨m, r, hlo, hhi, -⟩)
          · exact h
          · omega
  | succ n ih =>
      simp only [List.range'_1_concat, List.foldl_append, List.foldl_cons, List.foldl_nil]
      obtain ⟨hrow, hhas, hkeyed⟩ := ih
      refine ⟨?_, ?_, fun hk => keyed_select_one (hkeyed hk) p (lo + n)⟩
      · intro q j
        rw [row_select_one, hrow, Option.map_map]
        refine Option.map_congr ?_
        intro x _
        by_cases hq : q = p
        -- the last row of the span is the one this round selects
        · by_cases hlast : j = lo + n
          · simp [hq, hlast]
          · have hiff : (lo ≤ j ∧ j < lo + (n + 1)) ↔ (lo ≤ j ∧ j < lo + n) := by omega
            simp [hq, hlast, hiff]
        · simp [hq]
      · intro k
        rw [has_select_one, hhas, or_assoc]
        refine or_congr_right ?_
        constructor
        · rintro (⟨m, r, hlo, hhi, hr, rfl⟩ | ⟨r, hr, rfl⟩)
          · exact ⟨m, r, hlo, by omega, hr, rfl⟩
          -- the rows passed so far have the class, and their paths are as they were
          · rw [hrow, Option.map_eq_some_iff] at hr
            obtain ⟨x, hx, rfl⟩ := hr
            exact ⟨lo + n, x, by omega, by omega, hx, by split <;> rfl⟩
        · rintro ⟨m, r, hlo, hhi, hr, rfl⟩
          by_cases hlast : m = lo + n
          · subst hlast
            refine .inr ⟨_, (hrow p (lo + n)).trans (by rw [hr, Option.map_some]), ?_⟩
            split <;> rfl
          · exact .inl ⟨m, r, hlo, by omega, hr, rfl⟩

theorem span_mem (s : State) (p : Panel) (i : Nat) : (s.span p i).1 ≤ i ∧ i ≤ (s.span p i).2 :=
  ⟨Nat.min_le_right _ _, Nat.le_max_right _ _⟩

/-- A range keeps what is shown if and only if no row outside it shows a path that is
new. -/
theorem selectRange_shown {s : State} (hs : Shown s) (hk : Keyed s) {p : Panel} {i : Nat} {r : Row}
    (hr : s.row p i = some r) :
    (Shown (s.selectRange p i (r.item p)) ↔
        ∀ q j x, s.row q j = some x → has s.selected x.path = false →
          Between s p (s.span p i).1 ((s.span p i).2 + 1 - (s.span p i).1) x.path →
            q = p ∧ (s.span p i).1 ≤ j ∧ j ≤ (s.span p i).2) ∧
      Keyed (s.selectRange p i (r.item p)) := by
  unfold State.selectRange
  obtain ⟨hlo, hhi⟩ := span_mem s p i
  generalize hspan : s.span p i = span at hlo hhi
  obtain ⟨lo, hi⟩ := span
  dsimp only at hlo hhi ⊢
  obtain ⟨hrow, hhas, hkeyed⟩ := select_span s p lo (hi + 1 - lo)
  generalize (List.range' lo (hi + 1 - lo)).foldl (fun s j => s.select_one p j) s = s' at *
  refine ⟨?_, hkeyed hk⟩
  have hin : ∀ {q j}, (q = p ∧ lo ≤ j ∧ j < lo + (hi + 1 - lo)) ↔ (q = p ∧ lo ≤ j ∧ j ≤ hi) := by
    intro q j
    have hj : (lo ≤ j ∧ j < lo + (hi + 1 - lo)) ↔ (lo ≤ j ∧ j ≤ hi) := by omega
    rw [hj]
  -- the row that was clicked is in the range
  have hself : has s'.selected r.path = true :=
    (hhas r.path).mpr (.inr ⟨i, r, hlo, by omega, hr, rfl⟩)
  rw [shown_update]
  constructor
  · intro h q j x hx hfalse hbetween
    by_contra hout
    have hx' : s'.row q j = some x := by
      rw [hrow, hx, Option.map_some, if_neg (hin.not.mpr hout)]
    have hnew := (h.class_iff q j x hx').mpr ((hhas x.path).mpr (.inr hbetween))
    rw [(hs.class_iff q j x hx).mp hnew] at hfalse
    cases hfalse
  · intro hfits
    refine ⟨?_, ?_, ?_⟩
    · intro q j x' hx'
      obtain ⟨x, hx, rfl⟩ := Option.map_eq_some_iff.mp ((hrow q j).symm.trans hx')
      show _ ↔ has s'.selected _ = true
      by_cases hat : q = p ∧ lo ≤ j ∧ j < lo + (hi + 1 - lo)
      · simp only [if_pos hat, true_iff]
        rw [hat.1] at hx
        exact (hhas x.path).mpr (.inr ⟨j, x, hat.2.1, hat.2.2, hx, rfl⟩)
      · simp only [if_neg hat]
        rw [hhas, hs.class_iff q j x hx]
        constructor
        · exact Or.inl
        · rintro (h | hbetween)
          · exact h
          · by_contra hfalse
            exact hat (hin.mpr (hfits q j x hx (by simpa using hfalse) hbetween))
    · constructor
      · intro h
        cases h
      · intro h
        have hm : s'.selected = [] := h
        rw [hm] at hself
        cases hself
    · intro it hit
      rw [← Option.some.inj hit]
      exact hself

/-! ## Steps and runs -/

theorem class_cleared (s : State) {p : Panel} {i : Nat} {r : Row}
    (h : s.clear_classes.row p i = some r) : r.selected = false := by
  rw [State.clear_classes, row_map_rows, Option.map_eq_some_iff] at h
  obtain ⟨x, -, rfl⟩ := h
  rfl

theorem clearSelection_shown (s : State) : Shown s.clearSelection ∧ Keyed s.clearSelection := by
  refine ⟨?_, fun e he => nomatch he⟩
  unfold State.clearSelection
  rw [shown_update]
  refine ⟨?_, ⟨fun _ => rfl, fun _ => rfl⟩, fun it h => nomatch h⟩
  intro p i r hr
  have hclass : r.selected = false := class_cleared { s with selected := [] } hr
  show _ ↔ has [] r.path = true
  rw [hclass, has_nil]

/-- New rows are shown as the map has them. -/
theorem renderList_shown {s : State} (hs : Shown s) (p : Panel) (j : Listing) :
    Shown (s.renderList p j) := by
  refine ⟨?_, hs.sel_none, hs.sel_has⟩
  intro q i r hr
  by_cases hq : q = p
  · have hmem : r ∈ (s.renderList p j).rows p := List.mem_of_getElem? (hq ▸ hr)
    simp only [State.renderList, if_true] at hmem
    obtain ⟨e, -, rfl⟩ := List.mem_map.mp hmem
    exact Iff.rfl
  · have hr' : s.row q i = some r := by
      rw [← hr, State.row, State.row]
      simp only [State.renderList, if_neg hq]
    exact hs.class_iff q i r hr'

/-- A click on the empty area keeps what is shown only when nothing is selected. -/
theorem empty_area_shown {s : State} :
    Shown { s.clear_classes with sel := none } ↔ s.selected = [] := by
  constructor
  · intro h
    exact h.sel_none.mp rfl
  · intro hnil
    refine ⟨?_, ⟨fun _ => hnil, fun _ => rfl⟩, fun it h => nomatch h⟩
    intro p i r hr
    have hclass : r.selected = false := class_cleared s hr
    show _ ↔ has s.selected r.path = true
    rw [hclass, hnil, has_nil]

/-- **One event** keeps what is shown if and only if it marks all it selects. -/
theorem step_shown {s : State} (hs : Shown s) (hk : Keyed s) (e : Event) :
    (Shown (step s e) ↔ MarksAll s e) ∧ Keyed (step s e) := by
  cases e with
  | click p i shift ctrl =>
      simp only [step, MarksAll]
      cases hr : s.row p i with
      | none => exact ⟨⟨fun _ r h => (nomatch h), fun _ => hs⟩, hk⟩
      | some r =>
          simp only [Option.some.injEq, forall_eq']
          by_cases hshift : shift = true
          · simp only [hshift, if_true]
            exact selectRange_shown hs hk hr
          · simp only [hshift, Bool.false_eq_true, if_false]
            by_cases hctrl : ctrl = true
            · simp only [hctrl, if_true]
              exact selectRow_additive hs hk hr
            · simp only [hctrl, Bool.false_eq_true, if_false]
              -- a click on a directory opens it
              by_cases hdir : r.is_dir = true
              · simp only [hdir, if_true]
                exact ⟨⟨fun _ => trivial, fun _ => hs⟩, hk⟩
              · simp only [hdir, Bool.false_eq_true, if_false]
                exact selectRow_single s hr
  | checkbox p i =>
      simp only [step, MarksAll]
      cases hr : s.row p i with
      | none => exact ⟨⟨fun _ r h => (nomatch h), fun _ => hs⟩, hk⟩
      | some r =>
          simp only [Option.some.injEq, forall_eq']
          exact selectRow_additive hs hk hr
  | contextmenu p i =>
      simp only [step, MarksAll]
      cases hr : s.row p i with
      | none => exact ⟨⟨fun _ r h => (nomatch h), fun _ => hs⟩, hk⟩
      | some r =>
          simp only [Option.some.injEq, forall_eq']
          by_cases hhas : has s.selected r.path = true
          · simp only [hhas, if_true]
            exact ⟨⟨fun _ h => (nomatch h), fun _ => hs⟩, hk⟩
          · simp only [hhas, Bool.false_eq_true, if_false]
            obtain ⟨hshown, hkeyed⟩ := selectRow_single s hr
            exact ⟨⟨fun h _ => hshown.mp h, fun h => hshown.mpr (h (by simp))⟩, hkeyed⟩
  | empty_area p => exact ⟨empty_area_shown, hk⟩
  | clearSelection =>
      obtain ⟨h, hk'⟩ := clearSelection_shown s
      exact ⟨⟨fun _ => trivial, fun _ => h⟩, hk'⟩
  | renderList p j => exact ⟨⟨fun _ => trivial, fun _ => renderList_shown hs p j⟩, hk⟩

theorem shown_init : Shown State.init where
  class_iff _ _ _ h := nomatch h
  sel_none := ⟨fun _ => rfl, fun _ => rfl⟩
  sel_has _ h := nomatch h

/-- Every event of a run marks all it selects. -/
def AllMark (s : State) : List Event → Prop
  | [] => True
  | e :: es => MarksAll s e ∧ AllMark (step s e) es

/-- **A run** of such events keeps what is shown. -/
theorem run_keeps {s : State} (hs : Shown s) (hk : Keyed s) {es : List Event} (h : AllMark s es) :
    Shown (run s es) ∧ Keyed (run s es) := by
  induction es generalizing s with
  | nil => exact ⟨hs, hk⟩
  | cons e es ih =>
      obtain ⟨hshown, hkeyed⟩ := step_shown hs hk e
      exact ih (hshown.mpr h.1) hkeyed h.2

/-- What will be acted on is highlighted wherever it can be seen. -/
theorem selectedItems_shown {s : State} (hs : Shown s) (hk : Keyed s) {it : Item}
    (hit : it ∈ s.selectedItems) {p : Panel} {i : Nat} {r : Row} (hr : s.row p i = some r)
    (hpath : r.path = it.path) : r.selected = true := by
  refine (hs.class_iff p i r hr).mpr ?_
  rw [hpath]
  unfold State.selectedItems at hit
  by_cases hnil : s.selected = []
  · rw [if_neg (not_not_intro hnil), Option.mem_toList] at hit
    exact hs.sel_has it hit
  · rw [if_pos hnil] at hit
    obtain ⟨e, he, rfl⟩ := List.mem_map.mp hit
    exact has_iff.mpr ⟨e, he, (hk e he).symm⟩

/-- **What is highlighted is what will be acted on**, in every run whose events all fit
the states they meet. -/
theorem run_shown (es : List Event) (h : AllMark State.init es) :
    Shown (run State.init es) ∧
      ∀ it ∈ (run State.init es).selectedItems, ∀ p i r, (run State.init es).row p i = some r →
        r.path = it.path → r.selected = true := by
  obtain ⟨hs, hk⟩ := run_keeps shown_init (fun e he => nomatch he) h
  refine ⟨hs, ?_⟩
  intro it hit p i r hr hpath
  exact selectedItems_shown hs hk hit hr hpath

/-- A directory with two files. -/
def pair : Listing where
  path := "/d"
  entries := [{ name := "f", is_dir := false, link := false },
    { name := "g", is_dir := false, link := false }]

/-- A file's row as it is first rendered. -/
def Row.of (path name : String) : Row where
  path := path
  name := name
  is_dir := false
  link := false
  selected := false
  checked := false

/-- A click, everything deselected, and a click on the empty area. -/
theorem run_shown_cleared :
    Shown (run State.init
      [.renderList .A pair, .click .A 0 false false, .clearSelection, .empty_area .A]) := by
  refine (run_shown
    [.renderList .A pair, .click .A 0 false false, .clearSelection, .empty_area .A] ?_).1
  refine ⟨trivial, ?_, trivial, rfl, trivial⟩
  intro r hr
  have hpair : (step State.init (.renderList .A pair)).row .A 0 = some (.of "/d/f" "f") := by decide
  rw [hpair] at hr
  rw [← Option.some.inj hr]
  show Alone _ _ _ _
  rintro (_ | _) j r' hr' hpath
  · rcases j with _ | _ | j
    · exact ⟨rfl, rfl⟩
    · cases hr'
      revert hpath
      decide
    · cases hr'
  · cases hr'

/-- A click selects the file, a click on the empty area takes the highlight off, and the
file is still what will be deleted. -/
theorem empty_area_keeps_selection :
    ¬ Shown (run State.init [.renderList .A pair, .click .A 0 false false, .empty_area .A]) ∧
      (run State.init [.renderList .A pair, .click .A 0 false false, .empty_area .A]).selectedItems =
        [{ path := "/d/f", panel := .A, name := "f" }] := by
  constructor
  · intro h
    have hnil := h.sel_none.mp rfl
    revert hnil
    decide
  · decide

end WebDavs.Selection
