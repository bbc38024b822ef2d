/-
Which moves stay on one drive.

`path_drive` names the first component below the first of the two mounts that holds a
path, and nothing for a path outside both. `run_job` compares the two names. A name
does not say which mount it is below, and "no name" does not say whether the path is
a mount root or outside, so that the comparison takes the same drive name on two
machines for one drive, and a mount root for a place outside. `same_drive_iff` says
that it takes nothing else wrong.
-/
import WebDavs.Handlers

set_option autoImplicit false

namespace WebDavs.Mover

open WebDavs.Posix

/-- The drive of `p` below the mount root `m`, if `p` is there: the first component,
or none for the root itself. -/
def drive_under (m p : Path) : Option (Option Component) :=
  (Path.strip_prefix m p).map fun rest => rest.comps.head?

/-- Both paths lie under one mount root with the same first component below it (or
are that root), or both lie outside the two mounts. -/
def SameDrive (a b src dst : Path) : Prop :=
  (∃ m, (m = a ∨ m = b) ∧ ∃ c, drive_under m src = some c ∧ drive_under m dst = some c) ∨
    (drive_under a src = none ∧ drive_under b src = none ∧
      drive_under a dst = none ∧ drive_under b dst = none)

/-- Where a path is looked up: the first mount is asked first. -/
inductive Side where
  | first (c : Option Component)
  | second (c : Option Component)
  | outside

/-- The side of a path. -/
def side (a b p : Path) : Side :=
  match drive_under a p with
  | some c => .first c
  | none =>
    match drive_under b p with
    | some c => .second c
    | none => .outside

/-- What `path_drive` makes of a side. -/
def Side.drive : Side → Option Component
  | .first c => c
  | .second c => c
  | .outside => none

/-- Two sides that the names tell apart, if they are to be told apart. Where the first
mount is below the second, that one's drives count as well. -/
def ToldApart (a b : Path) : Side → Side → Prop
  | .first c, .first c' => (∃ x, drive_under b a = some (some x)) → c = c'
  | .first c, .second c' => c = c' ↔ drive_under b a = some c'
  | .second c', .first c => c = c' ↔ drive_under b a = some c'
  | .first c, .outside => c ≠ none
  | .outside, .first c => c ≠ none
  | .second c, .outside => c ≠ none
  | .outside, .second c => c ≠ none
  | .second _, .second _ => True
  | .outside, .outside => True

section Drives

variable {a b m p src dst : Path} {c c' : Option Component}

theorem path_drive_side (a b p : Path) : path_drive [a, b] p = (side a b p).drive := by
  unfold side drive_under path_drive path_drive path_drive
  cases Path.strip_prefix a p with
  | some rest => rfl
  | none =>
      cases Path.strip_prefix b p with
      | some rest => rfl
      | none => rfl

theorem drive_under_eq_some :
    drive_under m p = some c ↔ m.root = p.root ∧ ∃ r, p.comps = m.comps ++ r ∧ r.head? = c := by
  unfold drive_under Path.strip_prefix
  by_cases h : m.root = p.root ∧ m.comps <+: p.comps
  · rw [if_pos h, Option.map_some, Option.some.injEq]
    obtain ⟨hroot, r, hr⟩ := h
    have hdrop : p.comps.drop m.comps.length = r := by rw [← hr, List.drop_left]
    simp only [hdrop]
    constructor
    · intro hc
      exact ⟨hroot, r, hr.symm, hc⟩
    · rintro ⟨-, r', hr', hc⟩
      rw [← hr] at hr'
      rw [List.append_cancel_left hr']
      exact hc
  · rw [if_neg h, Option.map_none]
    constructor
    · intro hc
      cases hc
    · rintro ⟨hroot, r, hr, -⟩
      exact absurd ⟨hroot, r, hr.symm⟩ h

/-- Only the root itself has no drive. -/
theorem eq_of_no_drive (h : drive_under m p = some none) : m = p := by
  obtain ⟨hroot, r, hr, hnil⟩ := drive_under_eq_some.mp h
  rw [List.head?_eq_none_iff.mp hnil, List.append_nil] at hr
  cases m
  cases p
  dsimp only at hroot hr
  rw [hroot, hr]

/-- A path below a mount that is itself below another has that mount's drive there. -/
theorem drive_under_below {x : Component} (hm : drive_under b a = some (some x))
    (hp : drive_under a p = some c) : drive_under b p = some (some x) := by
  rw [drive_under_eq_some] at hm hp ⊢
  obtain ⟨hroot, r, hr, hx⟩ := hm
  obtain ⟨hroot', r', hr', -⟩ := hp
  refine ⟨hroot.trans hroot', r ++ r', ?_, ?_⟩
  · rw [hr', hr, List.append_assoc]
  · rw [List.head?_append, hx]
    rfl

/-- Of two mounts that hold one path, the first is below the second, or the second
below the first. -/
theorem nested_of_both (ha : drive_under a p = some c) (hb : drive_under b p = some c') :
    (∃ x, drive_under b a = some x) ∨ ∃ x, drive_under a b = some (some x) := by
  rw [drive_under_eq_some] at ha hb
  obtain ⟨hra, r, hr, -⟩ := ha
  obtain ⟨hrb, r', hr', -⟩ := hb
  rw [hr] at hr'
  rcases List.append_eq_append_iff.mp hr' with ⟨s, hs, -⟩ | ⟨s, hs, -⟩
  · -- the second begins with the first
    by_cases hnil : s = []
    · left
      refine ⟨none, drive_under_eq_some.mpr ⟨hrb.trans hra.symm, [], ?_, rfl⟩⟩
      rw [hs, hnil, List.append_nil, List.append_nil]
    · right
      obtain ⟨x, s, rfl⟩ := List.exists_cons_of_ne_nil hnil
      exact ⟨x, drive_under_eq_some.mpr ⟨hra.trans hrb.symm, x :: s, hs, rfl⟩⟩
  · left
    exact ⟨s.head?, drive_under_eq_some.mpr ⟨hrb.trans hra.symm, s, hs, rfl⟩⟩

theorem SameDrive.symm (h : SameDrive a b src dst) : SameDrive a b dst src := by
  rcases h with ⟨m, hm, c, hs, hd⟩ | ⟨h₁, h₂, h₃, h₄⟩
  · exact .inl ⟨m, hm, c, hd, hs⟩
  · exact .inr ⟨h₃, h₄, h₁, h₂⟩

theorem sameDrive_comm : SameDrive a b src dst ↔ SameDrive a b dst src :=
  ⟨SameDrive.symm, SameDrive.symm⟩

/-- Both below the first mount. -/
theorem sameDrive_first (hs : drive_under a src = some c) (hd : drive_under a dst = some c') :
    SameDrive a b src dst ↔ c = c' ∨ ∃ x, drive_under b a = some (some x) := by
  constructor
  · rintro (⟨m, rfl | rfl, e, hse, hde⟩ | ⟨hno, -⟩)
    · rw [hs] at hse
      rw [hd] at hde
      left
      rw [Option.some.inj hse, Option.some.inj hde]
    · -- the second mount holds both as well
      rcases nested_of_both hs hse with ⟨x, hx⟩ | ⟨x, hx⟩
      · cases x with
        | some x => exact .inr ⟨x, hx⟩
        | none =>
            left
            have hsame := eq_of_no_drive hx
            rw [hsame, hs] at hse
            rw [hsame, hd] at hde
            rw [Option.some.inj hse, Option.some.inj hde]
      · left
        have h₁ := drive_under_below hx hse
        have h₂ := drive_under_below hx hde
        rw [hs] at h₁
        rw [hd] at h₂
        rw [Option.some.inj h₁, Option.some.inj h₂]
    · rw [hs] at hno
      cases hno
  · rintro (rfl | ⟨x, hx⟩)
    · exact .inl ⟨a, .inl rfl, c, hs, hd⟩
    · exact .inl ⟨b, .inr rfl, some x, drive_under_below hx hs, drive_under_below hx hd⟩

/-- One below the first mount, one below the second alone. -/
theorem sameDrive_across (hs : drive_under a src = some c) (hno : drive_under a dst = none)
    (hd : drive_under b dst = some c') :
    SameDrive a b src dst ↔ drive_under b a = some c' := by
  constructor
  · rintro (⟨m, rfl | rfl, e, hse, hde⟩ | ⟨hout, -⟩)
    · rw [hno] at hde
      cases hde
    · rw [hd] at hde
      cases hde
      rcases nested_of_both hs hse with ⟨x, hx⟩ | ⟨x, hx⟩
      · cases x with
        | some x =>
            rw [drive_under_below hx hs] at hse
            rw [hx, hse]
        | none =>
            -- the mounts are the same, and the first would hold both
            rw [eq_of_no_drive hx, hno] at hd
            cases hd
      · rw [drive_under_below hx hd] at hno
        cases hno
    · rw [hs] at hout
      cases hout
  · intro hx
    cases c' with
    | some x => exact .inl ⟨b, .inr rfl, some x, drive_under_below hx hs, hd⟩
    | none =>
        rw [eq_of_no_drive hx, hno] at hd
        cases hd

/-- One below a mount, one outside both. -/
theorem not_sameDrive_outside (hs : drive_under a src = some c ∨ drive_under b src = some c)
    (ha : drive_under a dst = none) (hb : drive_under b dst = none) : ¬ SameDrive a b src dst := by
  rintro (⟨m, rfl | rfl, e, -, hde⟩ | ⟨h₁, h₂, -⟩)
  · rw [ha] at hde
    cases hde
  · rw [hb] at hde
    cases hde
  · rcases hs with hs | hs
    · rw [h₁] at hs
      cases hs
    · rw [h₂] at hs
      cases hs

/-- **Same drive.** What `run_job` takes for one drive is one drive, and the other way
round, exactly when the names tell apart what is to be told apart. -/
theorem same_drive_iff (a b : Path) (cpus : Option Nat) (op : Op) (src dst : PathBuf)
    (job : Job) :
    ((Runner.start ⟨[a, b], cpus⟩ op src dst job).same_drive = true ↔
        SameDrive a b src.path dst.path) ↔
      ToldApart a b (side a b src.path) (side a b dst.path) := by
  have hsame : (Runner.start ⟨[a, b], cpus⟩ op src dst job).same_drive = true ↔
      (side a b src.path).drive = (side a b dst.path).drive := by
    unfold Runner.start
    rw [decide_eq_true_eq, path_drive_side, path_drive_side]
  rw [hsame]
  -- a path is under the first root, else under the second, else outside: nine pairs of these
  unfold side
  cases hs : drive_under a src.path with
  | some c =>
      cases hd : drive_under a dst.path with
      | some c' =>
          simp only [Side.drive, ToldApart]
          rw [sameDrive_first hs hd]
          tauto
      | none =>
          cases hd' : drive_under b dst.path with
          | some c' =>
              simp only [Side.drive, ToldApart]
              rw [sameDrive_across hs hd hd']
          | none =>
              simp only [Side.drive, ToldApart]
              have := not_sameDrive_outside (.inl hs) hd hd'
              tauto
  | none =>
      cases hs' : drive_under b src.path with
      | some c' =>
          cases hd : drive_under a dst.path with
          | some c =>
              simp only [Side.drive, ToldApart]
              rw [sameDrive_comm, sameDrive_across hd hs hs', eq_comm]
          | none =>
              cases hd' : drive_under b dst.path with
              | some c =>
                  simp only [Side.drive, ToldApart, iff_true]
                  constructor
                  · rintro rfl
                    exact .inl ⟨b, .inr rfl, c', hs', hd'⟩
                  · rintro (⟨m, rfl | rfl, e, hse, hde⟩ | ⟨-, hno, -⟩)
                    · rw [hs] at hse
                      cases hse
                    · rw [hs'] at hse
                      rw [hd'] at hde
                      rw [Option.some.inj hse, Option.some.inj hde]
                    · rw [hs'] at hno
                      cases hno
              | none =>
                  simp only [Side.drive, ToldApart]
                  have := not_sameDrive_outside (.inr hs') hd hd'
                  tauto
      | none =>
          cases hd : drive_under a dst.path with
          | some c =>
              simp only [Side.drive, ToldApart]
              have := not_sameDrive_outside (.inl hd) hs hs'
              rw [sameDrive_comm]
              tauto
          | none =>
              cases hd' : drive_under b dst.path with
              | some c =>
                  simp only [Side.drive, ToldApart]
                  have := not_sameDrive_outside (.inr hd') hs hs'
                  rw [sameDrive_comm]
                  tauto
              | none =>
                  simp only [Side.drive, ToldApart, iff_true, true_iff]
                  exact .inr ⟨hs, hs', hd, hd'⟩

end Drives

/-- The drive `sda4` of one machine and the drive `sda4` of the other: taken for one. -/
theorem same_name_same_drive :
    (Runner.start ⟨[.abs ["webdav"], .abs ["webdav-local"]], none⟩ .move
        (.abs ["webdav", "sda4", "f"]) (.abs ["webdav-local", "sda4", "f"])
        (.queued .move "" "")).same_drive = true ∧
      ¬ SameDrive (.abs ["webdav"]) (.abs ["webdav-local"]) (.abs ["webdav", "sda4", "f"])
        (.abs ["webdav-local", "sda4", "f"]) := by
  have hdst : drive_under (.abs ["webdav"]) (.abs ["webdav-local", "sda4", "f"]) = none := by
    decide
  have hsrc : drive_under (.abs ["webdav-local"]) (.abs ["webdav", "sda4", "f"]) = none := by
    decide
  refine ⟨by decide, ?_⟩
  rintro (⟨m, rfl | rfl, c, hs, hd⟩ | ⟨h, -⟩)
  · rw [hdst] at hd
    cases hd
  · rw [hsrc] at hs
    cases hs
  · exact absurd h (by decide)

end WebDavs.Mover
