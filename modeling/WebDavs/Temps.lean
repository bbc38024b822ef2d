/-
`create_temp` among other uploads.

The loop tries sixteen names, and between two tries the directory may change: other
uploads take names and give them up. A name that is free when it is tried becomes this
upload's, since it is made with `create_new`; so no two live uploads share one as long
as nobody else takes a live upload's file away. What the loop does not do is go on: when
all sixteen names are taken it gives up, stale or not.
-/
import WebDavs.Uploads

set_option autoImplicit false

namespace WebDavs.AutoFs.Temps

open WebDavs.Posix WebDavs.Posix.FileTree WebDavs.Steps

/-! ## The loop, try by try -/

/-- One try: `open` with `create_new`, or an error of the environment's. -/
def attempt (k : Kernel) (d : Disk) (temp : Path) (fault : Option Errno) :
    Except Errno (Disk × Handle) :=
  match fault with
  | some e => .error e
  | none => d.create_new k temp

/-- The loop from the `i`-th try on. `ds i` is the disk as that try finds it. -/
def tries (k : Kernel) (ds : Nat → Disk) (fault : Nat → Option Errno) :
    Nat → List Path → Except FsError (Disk × Path × Handle)
  | _, [] => .error .exists_
  | i, temp :: temps =>
    match attempt k (ds i) temp (fault i) with
    | .ok (d', f) => .ok (d', temp, f)
    | .error .eexist => tries k ds fault (i + 1) temps
    | .error e => .error (.io e)

/-- `create_temp`, while the disk changes. -/
def create_temp_during (k : Kernel) (ds : Nat → Disk) (dir target : Path)
    (fault : Nat → Option Errno) : Except FsError (Disk × Path × Handle) :=
  tries k ds fault 0 (temp_paths dir target)

/-! ## What is asked of it -/

/-- The name was free, and is now an empty file that is in no other place. -/
structure Fresh (k : Kernel) (d d' : Disk) (temp : Path) (f : Handle) : Prop where
  free : k.lstat d.tree temp = none
  made : k.lstat d'.tree temp = some (.file f.ino)
  empty : (d'.inode f.ino).content = []
  new : ∀ l, d.tree.get l ≠ some (.file f.ino)

/-- A fresh name of its own, or an error that says something else than that it is
there. -/
def Served (k : Kernel) (ds : Nat → Disk) (dir target : Path) :
    Except FsError (Disk × Path × Handle) → Prop
  | .ok (d', temp, f) => ∃ i, (temp_paths dir target)[i]? = some temp ∧ Fresh k (ds i) d' temp f
  | .error e => ∃ e', e = .io e' ∧ e' ≠ .eexist

/-- The try meets a name that is taken. -/
def Taken (k : Kernel) (d : Disk) (temp : Path) : Option Errno → Prop
  | some e => e = .eexist
  | none => k.lstat d.tree temp ≠ none

/-! ## One try -/

section

variable {k : Kernel} {d d' : Disk} {dir : Path} {n : String} {f : Handle} {e : Errno}
  {fault : Option Errno}

theorem create_new_eexist {t : FileTree Nat} {i : Nat} :
    k.create_new t (dir.child n) i = .error .eexist ↔ k.lstat t (dir.child n) ≠ none := by
  rw [Kernel.lstat_child]
  unfold Kernel.create_new
  cases hs : k.slot t (dir.child n) with
  | none =>
      have hst : k.stat t (dir.child n) = none := Kernel.stat_child_of_no_slot hs
      rcases k.why_cases t (dir.child n) with h | h | h <;>
        simp [Kernel.unnamed_of_none hst, h]
  | some s =>
      obtain ⟨D, m⟩ := s
      obtain ⟨-, hD, -⟩ := Kernel.slot_child_eq_some.mp hs
      simp only [Option.bind_some]
      by_cases hfree : t.get (D ++ [m]) = none
      · rw [dif_pos ⟨hD, hfree⟩]
        simp [hfree]
      · rw [dif_neg fun h => hfree h.2]
        simp [hfree]

theorem disk_create_new_error {p : Path} :
    d.create_new k p = .error e ↔ k.create_new d.tree p d.next = .error e := by
  unfold Disk.create_new
  split
  · rename_i e' h
    rw [h]
    simp
  · rename_i t h
    have hne : k.create_new d.tree p d.next ≠ .error e := by
      rw [h]
      exact fun h => nomatch h
    exact ⟨fun h => (nomatch h), fun h => absurd h hne⟩

/-- A try goes on if and only if the name is taken. -/
theorem attempt_eexist :
    attempt k d (dir.child n) fault = .error .eexist ↔ Taken k d (dir.child n) fault := by
  cases fault with
  | some e => simp [attempt, Taken]
  | none => rw [attempt, disk_create_new_error, create_new_eexist, Taken]

/-- An entry stays where it is when the tree grows. -/
theorem lstat_extends {t t' : FileTree Nat} (hx : Extends t t') {x : Entry Nat}
    (h : k.lstat t (dir.child n) = some x) : k.lstat t' (dir.child n) = some x := by
  rw [Kernel.lstat_child] at h ⊢
  obtain ⟨s, hs, hget⟩ := Option.bind_eq_some_iff.mp h
  rw [Kernel.slot_extends hx hs, Option.bind_some]
  exact hx _ _ hget

/-- A try that succeeds has found the name free, and takes no entry away. -/
theorem attempt_ok (h : attempt k d (dir.child n) fault = .ok (d', f)) :
    Fresh k d d' (dir.child n) f ∧ Extends d.tree d'.tree := by
  cases fault with
  | some e => cases h
  | none =>
      obtain ⟨ht, rfl, -, hinode⟩ := Disk.create_new_ok h
      obtain ⟨D, m, hs, -, hfree, hget⟩ := Kernel.create_new_spec ht
      have hx : Extends d.tree d'.tree := by
        intro l e he
        rw [hget]
        by_cases hl : l = D ++ [m]
        · rw [hl, hfree] at he
          cases he
        · rw [if_neg hl, he]
      refine ⟨⟨?_, ?_, ?_, ?_⟩, hx⟩
      · rw [Kernel.lstat_child, hs, Option.bind_some, hfree]
      · rw [Kernel.lstat_child, Kernel.slot_extends hx hs, Option.bind_some, hget, if_pos rfl]
      · rw [hinode]
        simp
      · intro l hl
        exact absurd (d.fresh hl) (Nat.lt_irrefl _)

end

/-! ## The whole call -/

section

variable {k : Kernel} {ds : Nat → Disk} {dir target : Path} {fault : Nat → Option Errno}

theorem length_temp_paths (dir target : Path) : (temp_paths dir target).length = 16 := by
  rw [temp_paths, List.length_map, List.length_range]

/-- Each name is one in `dir`. -/
theorem temp_path_child {i : Nat} {temp : Path} (h : (temp_paths dir target)[i]? = some temp) :
    ∃ n, temp = dir.child n := by
  obtain ⟨n, hn, -⟩ := mem_temp_paths (List.mem_of_getElem? h)
  exact ⟨n, hn⟩

/-- The loop ends with the first try that does not meet a taken name, and as that try
does. -/
theorem tries_ok {names : List Path} {i : Nat} {d' : Disk} {temp : Path} {f : Handle}
    (h : tries k ds fault i names = .ok (d', temp, f)) :
    ∃ j : Nat, names[j]? = some temp ∧
      attempt k (ds (i + j)) temp (fault (i + j)) = .ok (d', f) := by
  induction names generalizing i with
  | nil => cases h
  | cons name names ih =>
      rw [tries] at h
      split at h
      · rename_i ha
        cases h
        exact ⟨0, rfl, ha⟩
      · obtain ⟨j, hj, ha⟩ := ih h
        have hij : i + 1 + j = i + (j + 1) := by omega
        rw [hij] at ha
        exact ⟨j + 1, hj, ha⟩
      · cases h

theorem tries_error {names : List Path} {i : Nat} {e : FsError}
    (h : tries k ds fault i names = .error e) :
    (e = .exists_ ∧ ∀ (j : Nat) temp, names[j]? = some temp →
        attempt k (ds (i + j)) temp (fault (i + j)) = .error .eexist) ∨
      ∃ e', e = .io e' ∧ e' ≠ .eexist ∧ ∃ (j : Nat) (temp : Path), names[j]? = some temp ∧
        attempt k (ds (i + j)) temp (fault (i + j)) = .error e' := by
  induction names generalizing i with
  | nil =>
      cases h
      exact .inl ⟨rfl, fun j temp hj => nomatch hj⟩
  | cons name names ih =>
      rw [tries] at h
      split at h
      · cases h
      · rename_i ha
        -- the name is taken, and what follows decides
        have hij : ∀ j, i + 1 + j = i + (j + 1) := by omega
        rcases ih h with ⟨he, hall⟩ | ⟨e', he, hne, j, temp, hj, hat⟩
        · refine .inl ⟨he, ?_⟩
          intro j temp hj
          cases j with
          | zero =>
              cases hj
              exact ha
          | succ j =>
              rw [← hij]
              exact hall j temp hj
        · rw [hij] at hat
          exact .inr ⟨e', he, hne, j + 1, temp, hj, hat⟩
      · rename_i e' hne ha
        cases h
        exact .inr ⟨e', rfl, hne, 0, name, rfl, ha⟩

/-- **One call** is served, or fails for another reason, if and only if one of the
sixteen names is not taken when it is tried. -/
theorem create_temp_served (k : Kernel) (ds : Nat → Disk) (dir target : Path)
    (fault : Nat → Option Errno) :
    Served k ds dir target (create_temp_during k ds dir target fault) ↔
      ∃ (i : Nat) (temp : Path), (temp_paths dir target)[i]? = some temp ∧
        ¬ Taken k (ds i) temp (fault i) := by
  cases hr : create_temp_during k ds dir target fault with
  | ok r =>
      obtain ⟨d', temp, f⟩ := r
      obtain ⟨i, hi, ha⟩ := tries_ok hr
      rw [Nat.zero_add] at ha
      obtain ⟨n, rfl⟩ := temp_path_child hi
      refine ⟨fun _ => ⟨i, _, hi, ?_⟩, fun _ => ⟨i, hi, (attempt_ok ha).1⟩⟩
      intro htaken
      rw [attempt_eexist.mpr htaken] at ha
      cases ha
  | error e =>
      rcases tries_error hr with ⟨rfl, hall⟩ | ⟨e', rfl, hne, i, temp, hi, ha⟩
      · constructor
        · rintro ⟨e', he, -⟩
          cases he
        · rintro ⟨i, temp, hi, hfree⟩
          obtain ⟨n, rfl⟩ := temp_path_child hi
          have ha := hall i _ hi
          rw [Nat.zero_add] at ha
          exact absurd (attempt_eexist.mp ha) hfree
      · rw [Nat.zero_add] at ha
        obtain ⟨n, rfl⟩ := temp_path_child hi
        refine ⟨fun _ => ⟨i, _, hi, ?_⟩, fun _ => ⟨e', rfl, hne⟩⟩
        intro htaken
        rw [attempt_eexist.mpr htaken] at ha
        exact hne (Except.error.inj ha).symm

/-- Where the disk does not change, this is the call that `open` makes. -/
theorem create_temp_still (k : Kernel) (d : Disk) (dir target : Path) {fault : Option Errno}
    (h : fault ≠ some .eexist) :
    create_temp_during k (fun _ => d) dir target (fun _ => fault) =
      create_temp k d dir target fun _ => fault := by
  unfold create_temp_during create_temp
  generalize (0 : Nat) = i
  induction temp_paths dir target generalizing i with
  | nil => rfl
  | cons temp temps ih =>
      rw [tries, create_temp_from]
      unfold attempt
      cases fault with
      | some e =>
          have he : e ≠ .eexist := fun heq => h (by rw [heq])
          cases e with
          | eexist => exact absurd rfl he
          | _ => rfl
      | none =>
          cases hc : d.create_new k temp with
          | ok r => rfl
          | error e =>
              cases e with
              | eexist => exact ih (i + 1)
              | _ => rfl

end

/-! ## Many calls -/

/-- A call of `create_temp`: at its `i`-th try; with a file, for an upload that is live or
over; or failed. -/
inductive Call where
  | trying (dir target : Path) (i : Nat)
  | served (temp : Path) (live : Bool)
  | failed (e : FsError)

/-- The disk and the calls so far. -/
structure System where
  disk : Disk
  calls : List Call

/-- A call begins; a call makes its next try; the upload of a call is over, which leaves
the disk `d`; anything else that anybody does to the disk. -/
inductive Event where
  | call (dir target : Path)
  | next (n : Nat) (fault : Option Errno)
  | finish (n : Nat) (d : Disk)
  | other (d : Disk)

namespace System

/-- One event. -/
def step (k : Kernel) (s : System) : Event → Option System
  | .call dir target => some { s with calls := s.calls ++ [.trying dir target 0] }
  | .next n fault =>
    match s.calls[n]? with
    | some (.trying dir target i) =>
      match (temp_paths dir target)[i]? with
      | none => some { s with calls := s.calls.set n (.failed .exists_) }
      | some temp =>
        match attempt k s.disk temp fault with
        | .ok (d', _) => some ⟨d', s.calls.set n (.served temp true)⟩
        | .error .eexist => some { s with calls := s.calls.set n (.trying dir target (i + 1)) }
        | .error e => some { s with calls := s.calls.set n (.failed (.io e)) }
    | _ => none
  | .finish n d =>
    match s.calls[n]? with
    | some (.served temp true) => some ⟨d, s.calls.set n (.served temp false)⟩
    | _ => none
  | .other d => some { s with disk := d }

/-- What `d` holds at the temp path of a live upload, of another call than `n`. -/
def Spares (k : Kernel) (s : System) (n : Option Nat) (d : Disk) : Prop :=
  ∀ (m : Nat) temp, some m ≠ n → s.calls[m]? = some (.served temp true) →
    k.lstat d.tree temp ≠ none

/-- The last name of a call is not taken when it is tried; and nobody but the upload
itself takes away the entry at its temp path. -/
def NamesLeft (k : Kernel) (s : System) : Event → Prop
  | .call _ _ => True
  | .next n fault => ∀ dir target temp, s.calls[n]? = some (.trying dir target 15) →
    (temp_paths dir target)[15]? = some temp → ¬ Taken k s.disk temp fault
  | .finish n d => s.Spares k (some n) d
  | .other d => s.Spares k none d

/-- The uploads of the calls hold entries of their own, and no call has run out of
names. -/
structure Inv (k : Kernel) (s : System) : Prop where
  there : s.Spares k none s.disk
  child : ∀ (n : Nat) temp live, s.calls[n]? = some (.served temp live) →
    ∃ (dir : Path) (name : String), temp = dir.child name
  apart : ∀ (n m : Nat) temp temp', n ≠ m → s.calls[n]? = some (.served temp true) →
    s.calls[m]? = some (.served temp' true) → temp ≠ temp'
  tried : ∀ (n : Nat) dir target i, s.calls[n]? = some (.trying dir target i) → i ≤ 15
  failed : ∀ (n : Nat) e, s.calls[n]? = some (.failed e) → ∃ e', e = .io e' ∧ e' ≠ .eexist

variable {k : Kernel} {s s' : System}

theorem Inv.init (d : Disk) : Inv k ⟨d, []⟩ := by
  refine ⟨?_, ?_, ?_, ?_, ?_⟩
  · intro m temp _ h
    cases h
  · intro n temp live h
    cases h
  · intro n m temp temp' _ h
    cases h
  · intro n dir target i h
    cases h
  · intro n e h
    cases h

/-- The calls change, and none is served that was not. -/
theorem Inv.recall (hi : Inv k s) {calls : List Call}
    (hold : ∀ (m : Nat) temp live, calls[m]? = some (.served temp live) →
      s.calls[m]? = some (.served temp live))
    (htried : ∀ (m : Nat) dir target i, calls[m]? = some (.trying dir target i) → i ≤ 15)
    (hfailed : ∀ (m : Nat) e, calls[m]? = some (.failed e) → ∃ e', e = .io e' ∧ e' ≠ .eexist) :
    Inv k { s with calls := calls } := by
  refine ⟨?_, ?_, ?_, htried, hfailed⟩
  · intro m temp hm h
    exact hi.there m temp hm (hold m temp _ h)
  · intro m temp live h
    exact hi.child m temp live (hold m temp live h)
  · intro m m' temp temp' hne h h'
    exact hi.apart m m' temp temp' hne (hold m temp _ h) (hold m' temp' _ h')

/-- A call goes on, or fails as it may. -/
theorem Inv.goes (hi : Inv k s) {n : Nat} {c : Call} (hserved : ∀ temp live, c ≠ .served temp live)
    (htried : ∀ dir target i, c = .trying dir target i → i ≤ 15)
    (hfailed : ∀ e, c = .failed e → ∃ e', e = .io e' ∧ e' ≠ .eexist) :
    Inv k { s with calls := s.calls.set n c } := by
  apply hi.recall
  · intro m temp live h
    rcases set_cases h with ⟨-, hc⟩ | ⟨-, h⟩
    · exact absurd hc.symm (hserved temp live)
    · exact h
  · intro m dir target i h
    rcases set_cases h with ⟨-, hc⟩ | ⟨-, h⟩
    · exact htried dir target i hc.symm
    · exact hi.tried m dir target i h
  · intro m e h
    rcases set_cases h with ⟨-, hc⟩ | ⟨-, h⟩
    · exact hfailed e hc.symm
    · exact hi.failed m e h

/-- A call begins. -/
theorem Inv.begins (hi : Inv k s) (dir target : Path) :
    Inv k { s with calls := s.calls ++ [.trying dir target 0] } := by
  apply hi.recall
  · intro m temp live h
    rcases append_cases h with ⟨-, hc⟩ | h
    · cases hc
    · exact h
  · intro m dir' target' i h
    rcases append_cases h with ⟨-, hc⟩ | h
    · cases hc
      exact Nat.zero_le 15
    · exact hi.tried m dir' target' i h
  · intro m e h
    rcases append_cases h with ⟨-, hc⟩ | h
    · cases hc
    · exact hi.failed m e h

/-- A call gets a file: at a name of its own, since the other uploads' have entries. -/
theorem Inv.serves (hi : Inv k s) {n : Nat} {dir : Path} {name : String} {fault : Option Errno}
    {d' : Disk} {f : Handle} (ha : attempt k s.disk (dir.child name) fault = .ok (d', f)) :
    Inv k ⟨d', s.calls.set n (.served (dir.child name) true)⟩ := by
  obtain ⟨hfresh, hx⟩ := attempt_ok ha
  -- what another call was served is still there, so this name is not it
  have hother : ∀ {m : Nat} {temp : Path}, s.calls[m]? = some (.served temp true) →
      temp ≠ dir.child name := by
    rintro m temp h rfl
    exact hi.there m _ (by simp) h hfresh.free
  refine ⟨?_, ?_, ?_, ?_, ?_⟩
  · intro m temp hm h
    rcases set_cases h with ⟨-, hc⟩ | ⟨-, h⟩
    · cases hc
      show k.lstat d'.tree (dir.child name) ≠ none
      rw [hfresh.made]
      simp
    · obtain ⟨dir', name', rfl⟩ := hi.child m temp true h
      obtain ⟨x, hx'⟩ := Option.ne_none_iff_exists'.mp (hi.there m _ hm h)
      show k.lstat d'.tree (dir'.child name') ≠ none
      rw [lstat_extends hx hx']
      simp
  · intro m temp live h
    rcases set_cases h with ⟨-, hc⟩ | ⟨-, h⟩
    · cases hc
      exact ⟨dir, name, rfl⟩
    · exact hi.child m temp live h
  · intro m m' temp temp' hne h h'
    rcases set_cases h with ⟨hm, hc⟩ | ⟨-, h⟩
    · rcases set_cases h' with ⟨hm', -⟩ | ⟨-, h'⟩
      · exact absurd (hm.trans hm'.symm) hne
      · cases hc
        exact (hother h').symm
    · rcases set_cases h' with ⟨-, hc⟩ | ⟨-, h'⟩
      · cases hc
        exact hother h
      · exact hi.apart m m' temp temp' hne h h'
  · intro m dir' target i h
    rcases set_cases h with ⟨-, hc⟩ | ⟨-, h⟩
    · cases hc
    · exact hi.tried m dir' target i h
  · intro m e h
    rcases set_cases h with ⟨-, hc⟩ | ⟨-, h⟩
    · cases hc
    · exact hi.failed m e h

/-- An upload is over. -/
theorem Inv.ends (hi : Inv k s) {n : Nat} {temp : Path} {d : Disk}
    (hn : s.calls[n]? = some (.served temp true)) (hd : s.Spares k (some n) d) :
    Inv k ⟨d, s.calls.set n (.served temp false)⟩ := by
  have hold : ∀ {m : Nat} {temp' : Path},
      (s.calls.set n (.served temp false))[m]? = some (.served temp' true) →
      m ≠ n ∧ s.calls[m]? = some (.served temp' true) := by
    intro m temp' h
    rcases set_cases h with ⟨-, hc⟩ | ⟨hne, h⟩
    · cases hc
    · exact ⟨hne, h⟩
  refine ⟨?_, ?_, ?_, ?_, ?_⟩
  · intro m temp' _ h
    obtain ⟨hne, h⟩ := hold h
    exact hd m temp' (fun heq => hne (Option.some.inj heq)) h
  · intro m temp' live h
    rcases set_cases h with ⟨-, hc⟩ | ⟨-, h⟩
    · cases hc
      exact hi.child n temp true hn
    · exact hi.child m temp' live h
  · intro m m' temp₁ temp₂ hne h h'
    exact hi.apart m m' temp₁ temp₂ hne (hold h).2 (hold h').2
  · intro m dir target i h
    rcases set_cases h with ⟨-, hc⟩ | ⟨-, h⟩
    · cases hc
    · exact hi.tried m dir target i h
  · intro m e h
    rcases set_cases h with ⟨-, hc⟩ | ⟨-, h⟩
    · cases hc
    · exact hi.failed m e h

/-- **One event** that names_left keeps the temp paths apart. -/
theorem Inv.step (hi : Inv k s) {e : Event} (hf : NamesLeft k s e) (hs : s.step k e = some s') :
    Inv k s' := by
  cases e with
  | call dir target =>
      cases hs
      exact hi.begins dir target
  | next n fault =>
      simp only [System.step] at hs
      split at hs
      · rename_i dir target i hn
        have hle := hi.tried n dir target i hn
        split at hs
        · rename_i hnone
          -- there are sixteen names
          have hge := List.getElem?_eq_none_iff.mp hnone
          rw [length_temp_paths] at hge
          omega
        · rename_i temp htemp
          obtain ⟨name, rfl⟩ := temp_path_child htemp
          split at hs
          · rename_i d' f ha
            cases hs
            exact hi.serves ha
          · rename_i ha
            cases hs
            have hlt : i ≠ 15 := by
              rintro rfl
              exact hf dir target _ hn htemp (attempt_eexist.mp ha)
            refine hi.goes (by simp) ?_ (by simp)
            rintro dir' target' i' ⟨⟩
            omega
          · rename_i e' hne ha
            cases hs
            refine hi.goes (by simp) (by simp) ?_
            rintro e ⟨⟩
            exact ⟨e', rfl, hne⟩
      · cases hs
  | finish n d =>
      simp only [System.step] at hs
      split at hs
      · rename_i temp hn
        cases hs
        exact hi.ends hn hf
      · cases hs
  | other d =>
      cases hs
      exact ⟨hf, hi.child, hi.apart, hi.tried, hi.failed⟩

end System

/-- The name a call gets was free, and is an empty file now. -/
theorem served_fresh {k : Kernel} {s s' : System} {e : Event} (hs : s.step k e = some s') {n : Nat}
    {temp : Path} (h : s'.calls[n]? = some (.served temp true)) :
    s.calls[n]? = some (.served temp true) ∨ ∃ f, Fresh k s.disk s'.disk temp f := by
  cases e with
  | call dir target =>
      cases hs
      rcases append_cases h with ⟨-, hc⟩ | h
      · cases hc
      · exact .inl h
  | next m fault =>
      simp only [System.step] at hs
      split at hs
      · rename_i dir target i hn
        split at hs
        · cases hs
          rcases set_cases h with ⟨-, hc⟩ | ⟨-, h⟩
          · cases hc
          · exact .inl h
        · rename_i temp' htemp
          obtain ⟨name, rfl⟩ := temp_path_child htemp
          split at hs
          -- served in this step: the attempt has created the file
          · rename_i d' f ha
            cases hs
            rcases set_cases h with ⟨-, hc⟩ | ⟨-, h⟩
            · cases hc
              exact .inr ⟨f, (attempt_ok ha).1⟩
            · exact .inl h
          · cases hs
            rcases set_cases h with ⟨-, hc⟩ | ⟨-, h⟩
            · cases hc
            · exact .inl h
          -- the name was taken, or the attempt has failed: nothing is served
          · cases hs
            rcases set_cases h with ⟨-, hc⟩ | ⟨-, h⟩
            · cases hc
            · exact .inl h
      · cases hs
  | finish m d =>
      simp only [System.step] at hs
      split at hs
      · cases hs
        rcases set_cases h with ⟨-, hc⟩ | ⟨-, h⟩
        · cases hc
        · exact .inl h
      · cases hs
  | other d =>
      cases hs
      exact .inl h

/-- **Temp files.** A call is served with a fresh name, or fails for another reason than
that names are taken, if and only if one of its sixteen names is not taken when it is
tried. And in every run in which each call's last name, if it comes to that, is not
taken, and nobody takes away the entry at the temp path of another's live upload: the
temp paths of live uploads are pairwise different, no call fails for want of a name, and
each call that is served gets a name that was free, with an empty file made by it. -/
theorem temps_apart (k : Kernel) :
    (∀ ds dir target fault,
      Served k ds dir target (create_temp_during k ds dir target fault) ↔
        ∃ (i : Nat) (temp : Path), (temp_paths dir target)[i]? = some temp ∧
          ¬ Taken k (ds i) temp (fault i)) ∧
    ∀ d s, Reach (System.step k) (System.NamesLeft k) ⟨d, []⟩ s →
      (∀ (n m : Nat) temp temp', n ≠ m → s.calls[n]? = some (.served temp true) →
        s.calls[m]? = some (.served temp' true) → temp ≠ temp') ∧
      (∀ (n : Nat) e, s.calls[n]? = some (.failed e) → ∃ e', e = .io e' ∧ e' ≠ .eexist) ∧
      ∀ e s' (n : Nat) temp, s.step k e = some s' → s'.calls[n]? = some (.served temp true) →
        s.calls[n]? = some (.served temp true) ∨ ∃ f, Fresh k s.disk s'.disk temp f := by
  refine ⟨create_temp_served k, ?_⟩
  intro d s hs
  have hi : System.Inv k s := hs.inv (System.Inv.init d) fun _ _ _ hi hf hstep => hi.step hf hstep
  exact ⟨hi.apart, hi.failed, fun e s' n temp hstep h => served_fresh hstep h⟩

/-- What sixteen uploads of one target leave behind that are never finished. -/
def stale (dir target : Path) (n : Nat) : Disk :=
  (List.range n).foldl (fun d _ =>
    match create_temp host d dir target fun _ => none with
    | .ok (d', _, _) => d'
    | .error _ => d) .blank

/-- Whether a call has run out of names. -/
def refused : Except FsError (Disk × Path × Handle) → Bool
  | .error .exists_ => true
  | _ => false

theorem not_served_of_refused {k : Kernel} {ds : Nat → Disk} {dir target : Path}
    {r : Except FsError (Disk × Path × Handle)} (h : refused r = true) :
    ¬ Served k ds dir target r := by
  intro hs
  match r with
  | .ok x => cases h
  | .error e =>
    obtain ⟨e', rfl, -⟩ := hs
    cases h

/-- The seventeenth upload is refused because of them. -/
theorem seventeenth_blocked :
    ¬ Served host (fun _ => stale (.abs []) (.abs ["f"]) 16) (.abs []) (.abs ["f"])
      (create_temp_during host (fun _ => stale (.abs []) (.abs ["f"]) 16) (.abs []) (.abs ["f"])
        fun _ => none) :=
  not_served_of_refused (by decide +kernel)

/-- A test that is enough for `NamesLeft`. -/
def names_left (s : System) : Event → Bool
  | .call _ _ => true
  | .next n _ =>
    match s.calls[n]? with
    | some (.trying _ _ i) => i ≠ 15
    | _ => true
  | _ => false

theorem names_left_spec (k : Kernel) (s : System) (e : Event) (h : names_left s e = true) :
    s.NamesLeft k e := by
  cases e with
  | call dir target => trivial
  | next n fault =>
      intro dir target temp hn
      simp [names_left, hn] at h
  | finish n d => cases h
  | other d => cases h

/-- The file that a call has been given, while its upload goes on. -/
def Call.temp : Call → Option Path
  | .served temp true => some temp
  | _ => none

theorem Call.temp_eq_some {c : Call} {temp : Path} :
    c.temp = some temp ↔ c = .served temp true := by
  constructor
  · intro h
    unfold Call.temp at h
    split at h
    · rw [Option.some.inj h]
    · cases h
  · rintro rfl
    rfl

/-- Two uploads of one target, whose calls take turns. -/
theorem temps_apart_two : ∃ s, Reach (System.step host) (System.NamesLeft host) ⟨.blank, []⟩ s ∧
    ∃ temp temp', s.calls[0]? = some (.served temp true) ∧
      s.calls[1]? = some (.served temp' true) ∧ temp ≠ temp' := by
  have hrun : (exec_if (System.step host) names_left ⟨.blank, []⟩
      [.call (.abs []) (.abs ["f"]), .call (.abs []) (.abs ["f"]), .next 1 none, .next 0 none,
        .next 0 none]).map (fun s => s.calls.map Call.temp) =
      some [some (.abs ["f.uploading.nzk_webdavs.1"]), some (.abs ["f.uploading.nzk_webdavs"])] := by
    decide
  obtain ⟨s, hs, hout⟩ := Option.map_eq_some_iff.mp hrun
  have hreach := reach_of_exec_if (names_left_spec host) hs
  have hserved : ∀ (n : Nat) temp, (s.calls.map Call.temp)[n]? = some (some temp) →
      s.calls[n]? = some (.served temp true) := by
    intro n temp h
    obtain ⟨c, hc, hv⟩ := Option.map_eq_some_iff.mp (List.getElem?_map.symm.trans h)
    rw [hc, Call.temp_eq_some.mp hv]
  have h₀ := hserved 0 _ (by rw [hout]; rfl)
  have h₁ := hserved 1 _ (by rw [hout]; rfl)
  exact ⟨s, hreach, _, _, h₀, h₁,
    ((temps_apart host).2 .blank s hreach).1 0 1 _ _ (by decide) h₀ h₁⟩

end WebDavs.AutoFs.Temps
