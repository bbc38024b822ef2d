/-
`src/server.rs`: `serve`, from its first connection to its last, on the file system of
`src/autofs.rs`.

The loop hands each connection to a task of its own. When it is told to stop, it waits
for the tasks, for half a minute at most, and what is left of them is dropped then: a
request that is before the handler is broken off wherever it is, and so is every upload
it has open. A connection may be lost as well, at any time. That a restart does no harm
to what is served lies in `AtomicFile`: an upload that is dropped takes its temp file
along, and one that has come to its target is there with all of its bytes.

So at every moment each entry of the disk has an origin (`Traced`): it was there before,
it is a directory that a request has made, it is the temp file of an upload under way,
or it is an upload, whole. Once the loop has been left, the last but one have gone.

What is not here are the requests that `LocalFs` does alone, such as a `DELETE`; no
upload of these runs has the temp file of another one for its target (`Apart`), or a
link.
-/
import WebDavs.Exclusive
import WebDavs.Interleave
import WebDavs.Posix.Local
import WebDavs.Pool
import WebDavs.Serve
import WebDavs.Tls

set_option autoImplicit false

namespace WebDavs.Restart

open WebDavs.Posix WebDavs.Posix.FileTree WebDavs.Steps WebDavs.Interleave WebDavs.Pool
open WebDavs.AutoFs

/-! ## Where an entry comes from -/

section Origin

variable (k : Kernel) (c : Crates) (b : Disk)

/-- A commit that finds no temp file of an upload under way at its target, and no link. -/
def Orderly (s : AutoFs.Server) (e : AutoFs.Event) : Prop :=
  Apart k c s e ∧ ∀ i u f, e = .act i (.flush f) ∨ e = .act i (.metadata f) →
    s.uploads[i]? = some u → u.Commits c f →
      ∀ d n, k.slot s.disk.tree u.af.target_path = some (d, n) → s.disk.tree.linkAt (d ++ [n]) = none

/-- The upload has been committed, and `l` is where its target is. -/
def Arrived (t : FileTree Nat) (u : Upload) (l : Loc) : Prop :=
  u.af.committed = true ∧ ∃ d n, k.slot t u.af.target_path = some (d, n) ∧ l = d ++ [n]

/-- What is at `l` was there before, or is a directory that has been made there, or
belongs to an upload: its temp file, or its target. -/
def Origin (s : AutoFs.Server) (l : Loc) : Prop :=
  s.disk.tree.get l = b.tree.get l ∨
    (b.tree.get l = none ∧ s.disk.tree.get l = some .dir) ∨
    ∃ u ∈ s.uploads, s.disk.tree.get l = some (.file u.ino) ∧
      ((u.Live ∧ b.tree.get l = none) ∨ Arrived k s.disk.tree u l)

/-- The invariant of the store: files that were there before keep their contents, each
entry has its origin, and no directory or link that an upload under way has found is
gone. -/
structure StoreInv (s : AutoFs.Server) : Prop where
  booked : Booked k c s
  next : b.next ≤ s.disk.next
  new : ∀ u ∈ s.uploads, b.next ≤ u.ino
  born : ∀ u ∈ s.uploads, u.Live → Firm u.born s.disk.tree
  inode : ∀ i < b.next, s.disk.inode i = b.inode i
  origin : ∀ l, Origin k b s l

end Origin

variable {k : Kernel} {c : Crates} {b : Disk}

/-- A step that commits nothing. -/
theorem orderly_of_no_commit {s : AutoFs.Server} {e : AutoFs.Event}
    (h : ∀ i f, e ≠ .act i (.flush f) ∧ e ≠ .act i (.metadata f)) : Orderly k c s e := by
  have hno : ∀ i f, ¬ (e = .act i (.flush f) ∨ e = .act i (.metadata f)) := by
    rintro i f (he | he)
    · exact (h i f).1 he
    · exact (h i f).2 he
  exact ⟨fun i _ f he => absurd he (hno i f), fun i _ f he => absurd he (hno i f)⟩

theorem Arrived.firm {t t' : FileTree Nat} {u : Upload} {l : Loc} (h : Arrived k t u l)
    (hf : Firm t t') : Arrived k t' u l := by
  obtain ⟨hcom, d, n, hslot, hl⟩ := h
  exact ⟨hcom, d, n, Kernel.slot_keepsDirs (hf.keepsDirs _) hslot, hl⟩

/-- Where nothing is, nothing was before. -/
theorem Origin.none {s : AutoFs.Server} {l : Loc} (h : Origin k b s l)
    (hl : s.disk.tree.get l = none) : b.tree.get l = none := by
  rcases h with h | ⟨-, h⟩ | ⟨u, -, h, -⟩
  · rw [← h, hl]
  · rw [hl] at h
    cases h
  · rw [hl] at h
    cases h

/-- A step leaves all directories and links in place, if it commits to no link. -/
theorem firm_of_effect {d d' : Disk} {u u' : Upload} (h : u.Effect k d d' u')
    (hlink : u.Live → u'.af.committed = true → ∀ D n,
      k.slot d.tree u.af.target_path = some (D, n) → d.tree.linkAt (D ++ [n]) = none) :
    Firm d.tree d'.tree := by
  -- the temp file is neither
  have htemp : ∀ o l, u.Held k o d → (d.tree.get l = some .dir ∨ d.tree.linkAt l ≠ none) →
      l ≠ o.loc := by
    rintro o l ho hl rfl
    have hfile := (ho.only _).mpr rfl
    rw [hfile, linkAt_of_file hfile] at hl
    simp at hl
  intro l hl
  cases h with
  | quiet htree hlive hcom => rw [htree]
  | renamed o m hlive hheld hcom hslot hnd hget hlands =>
      have hne : l ≠ o.base ++ [m] := by
        rintro rfl
        rcases hl with hl | hl
        · exact hnd hl
        · exact hl (hlink hlive hcom _ _ hslot)
      rw [hget, if_neg hne, if_neg (htemp o l hheld hl)]
  | removed o hlive hheld hgone hcom hget => rw [hget, if_neg (htemp o l hheld hl)]

/-- What becomes of an upload under way: it stays so, it commits, or its file is gone.
A temp file is found as long as the directories and links on the way to it stay. -/
theorem live_or_over {d d' : Disk} {u u' : Upload} {a : Act}
    (hh : u.Live → ∃ o, u.Held k o d) (hb : Firm u.born d.tree)
    (hs : u.step k c d a = some (d', u')) (hl : u.Live) :
    u'.Live ∨ u'.af.committed = true ∨ ∀ l, d'.tree.get l ≠ some (.file u.ino) := by
  cases Upload.step_cases hs with
  | wrote call hw =>
      have hcom : (u.af.write d call).1.committed = u.af.committed := Upload.write_committed _ _ _
      refine .inl ⟨hcom.trans hl.1, ?_⟩
      cases (u.af.write d call).2.2 <;> simp [Upload.outcome]
  | committed _ fault st ha hst hst' =>
      cases hcom : (u.af.commit k c d fault).1.committed with
      | true => exact .inr (.inl rfl)
      | false =>
          refine .inl ⟨hcom, ?_⟩
          rcases hst' with rfl | rfl | rfl <;> simp
  | dropped hst =>
      -- the directory of the temp file is where it was
      obtain ⟨o, ho⟩ := hh hl
      have hstat : k.stat d.tree o.dir = some o.base :=
        Kernel.stat_keepsDirs (hb.keepsDirs _) ho.stat ho.dir
      refine .inr (.inr fun l hfile => ?_)
      rw [ho.drop_removes hstat hl.1] at hfile
      split at hfile
      · cases hfile
      · rename_i hne
        exact hne ((ho.only l).mp hfile)

/-- An inode belongs to one upload only. -/
theorem owner {s : AutoFs.Server} (h : Booked k c s) {u v : Upload} (hu : u ∈ s.uploads)
    (hv : v ∈ s.uploads) (he : u.ino = v.ino) : u = v := by
  obtain ⟨i, hi⟩ := List.mem_iff_getElem?.mp hu
  obtain ⟨j, hj⟩ := List.mem_iff_getElem?.mp hv
  by_cases hij : i = j
  · rw [hij, hj] at hi
    exact (Option.some.inj hi).symm
  · exact absurd he (h.distinct i j u v hij hi hj)

namespace StoreInv

variable {s : AutoFs.Server} {d : Disk}

theorem start (k : Kernel) (c : Crates) (d : Disk) : StoreInv k c d ⟨d, []⟩ where
  booked := Server.booked_start k c d
  next := Nat.le_refl _
  new := by simp
  born := by simp
  inode _ _ := rfl
  origin _ := .inl rfl

/-- Making directories. -/
theorem grow (h : StoreInv k c b s) (hg : Grows s.disk.tree d.tree) (hi : d.inode = s.disk.inode)
    (hn : d.next = s.disk.next) : StoreInv k c b ⟨d, s.uploads⟩ where
  booked := Server.booked_grow h.booked hg hi hn
  next := by
    rw [hn]
    exact h.next
  new := h.new
  born u hu hl := (h.born u hu hl).trans hg.firm
  inode i hlt := by
    rw [hi]
    exact h.inode i hlt
  origin l := by
    rcases hg l with he | ⟨hnone, hdir⟩
    · rcases h.origin l with ho | ⟨ho, hd⟩ | ⟨u, hu, hf, ho⟩
      · exact .inl (he.trans ho)
      · exact .inr (.inl ⟨ho, he.trans hd⟩)
      · refine .inr (.inr ⟨u, hu, he.trans hf, ?_⟩)
        exact ho.imp (fun hl => hl) fun ha => ha.firm hg.firm
    · exact .inr (.inl ⟨(h.origin l).none hnone, hdir⟩)

/-- A temp file more. -/
theorem add {us : List Upload} {dm : Disk} {o : Spot} {af : AtomicFile}
    (h : StoreInv k c b ⟨dm, us⟩) (hop : Opening k dm d o af) :
    StoreInv k c b ⟨d, us ++ [Upload.start d af]⟩ := by
  have hino : (Upload.start d af).ino = dm.next := by simp [Upload.start, hop.file]
  -- what had an entry before is not where the temp file is
  have hfirm : Firm dm.tree d.tree := by
    intro l hl
    have hne : l ≠ o.loc := by
      rintro rfl
      rw [hop.free, linkAt_of_none hop.free] at hl
      simp at hl
    rw [hop.get, if_neg hne]
  have hold : b.next ≤ dm.next := h.next
  refine ⟨Server.booked_add h.booked hop, ?_, ?_, ?_, ?_, ?_⟩
  · rw [show d.next = dm.next + 1 from hop.next]
    omega
  · intro u hu
    rcases List.mem_append.mp hu with hu | hu
    · exact h.new u hu
    · rw [List.mem_singleton.mp hu, hino]
      exact h.next
  · intro u hu hl
    rcases List.mem_append.mp hu with hu | hu
    · exact (h.born u hu hl).trans hfirm
    · rw [List.mem_singleton.mp hu]
      exact Firm.refl _
  · intro i hi
    simp only [hop.inode]
    rw [if_neg (by omega)]
    exact h.inode i hi
  · intro l
    by_cases hl : l = o.loc
    · -- the temp file is the new upload's, and nothing was there
      refine .inr (.inr ⟨_, List.mem_append_right _ List.mem_cons_self, ?_, .inl ⟨?_, ?_⟩⟩)
      · rw [hop.get, if_pos hl, hino]
      · exact ⟨hop.committed, by simp [Upload.start]⟩
      · rw [hl]
        exact (h.origin o.loc).none hop.free
    · have he : d.tree.get l = dm.tree.get l := by rw [hop.get, if_neg hl]
      rcases h.origin l with ho | ⟨ho, hd⟩ | ⟨u, hu, hf, ho⟩
      · exact .inl (he.trans ho)
      · exact .inr (.inl ⟨ho, he.trans hd⟩)
      · refine .inr (.inr ⟨u, List.mem_append_left _ hu, he.trans hf, ?_⟩)
        exact ho.imp (fun hl => hl) fun ha => ha.firm hfirm

/-- Where the temp file of an upload under way is, nothing was before. -/
theorem temp_new (h : StoreInv k c b s) {u : Upload} (hu : u ∈ s.uploads) (hl : u.Live) {l : Loc}
    (hf : s.disk.tree.get l = some (.file u.ino)) : b.tree.get l = none := by
  rcases h.origin l with ho | ⟨-, ho⟩ | ⟨v, hv, hfv, ho⟩
  · -- the inode is newer than the disk
    rw [hf] at ho
    have hlt : u.ino < b.next := b.fresh ho.symm
    have hnew := h.new u hu
    omega
  · rw [hf] at ho
    cases ho
  · rw [hf, Option.some.injEq, Entry.file.injEq] at hfv
    obtain rfl := owner h.booked hu hv hfv
    rcases ho with ⟨-, ho⟩ | ha
    · exact ho
    · have hcom := ha.1
      rw [hl.1] at hcom
      cases hcom

/-- A place that is as it was, and not the file of the upload that takes a step. -/
theorem origin_other (h : StoreInv k c b s) {i : Nat} {u u' : Upload} (hu : s.uploads[i]? = some u)
    (hfirm : Firm s.disk.tree d.tree) {l : Loc} (he : d.tree.get l = s.disk.tree.get l)
    (hne : s.disk.tree.get l ≠ some (.file u.ino)) : Origin k b ⟨d, s.uploads.set i u'⟩ l := by
  rcases h.origin l with ho | ⟨ho, hd⟩ | ⟨v, hv, hf, ho⟩
  · exact .inl (he.trans ho)
  · exact .inr (.inl ⟨ho, he.trans hd⟩)
  · rcases mem_set_of_mem hu hv with rfl | hv'
    · exact absurd hf hne
    · exact .inr (.inr ⟨v, hv', he.trans hf, ho.imp (fun hl => hl) fun ha => ha.firm hfirm⟩)

/-- A step leaves each entry with an origin. -/
theorem origin_act (h : StoreInv k c b s) {i : Nat} {a : Act} {u u' : Upload}
    (hu : s.uploads[i]? = some u) (hs : u.step k c s.disk a = some (d, u'))
    (heff : u.Effect k s.disk d u') (hfirm : Firm s.disk.tree d.tree) (l : Loc) :
    Origin k b ⟨d, s.uploads.set i u'⟩ l := by
  obtain ⟨hki, -, -, hkg, -, -⟩ := Upload.step_keeps hs
  have hmem : u ∈ s.uploads := List.mem_of_getElem? hu
  have hself : u' ∈ s.uploads.set i u' := mem_set_self hu
  -- the temp file goes from where it was
  have hgone : u.Live → s.disk.tree.get l = some (.file u.ino) → d.tree.get l = none →
      Origin k b ⟨d, s.uploads.set i u'⟩ l := by
    intro hl hf hnone
    exact .inl (hnone.trans (h.temp_new hmem hl hf).symm)
  cases heff with
  | quiet htree hlive hcom =>
      have he : d.tree.get l = s.disk.tree.get l := by rw [htree]
      by_cases hf : s.disk.tree.get l = some (.file u.ino)
      · rcases h.origin l with ho | ⟨-, ho⟩ | ⟨v, hv, hfv, ho⟩
        · exact .inl (he.trans ho)
        · rw [hf] at ho
          cases ho
        · rw [hf, Option.some.injEq, Entry.file.injEq] at hfv
          obtain rfl := owner h.booked hmem hv hfv
          have hfile : d.tree.get l = some (.file u'.ino) := by rw [he, hf, hki]
          refine .inr (.inr ⟨u', hself, hfile, ?_⟩)
          rcases ho with ⟨hl, hnone⟩ | ⟨hc, D, n, hslot, hln⟩
          · rcases live_or_over (h.booked.held i u hu) (h.born u hmem hl) hs hl with
              hl' | hcom' | hno
            · exact .inl ⟨hl', hnone⟩
            · have hc := hcom hcom'
              rw [hl.1] at hc
              cases hc
            · exact absurd (he.trans hf) (hno l)
          · refine .inr ⟨Upload.committed_stays hs hc, D, n, ?_, hln⟩
            rw [hkg, htree, hslot]
      · exact h.origin_other hu hfirm he hf
  | renamed o m hlive hheld hcom hslot hnd hget hlands =>
      by_cases hl : l = o.base ++ [m]
      · -- the upload has come to its target
        refine .inr (.inr ⟨u', hself, ?_, .inr ⟨hcom, o.base, m, ?_, hl⟩⟩)
        · rw [hget, if_pos hl, hki]
        · rw [hkg]
          exact Kernel.slot_keepsDirs (hfirm.keepsDirs _) hslot
      · have hget' := hget l
        rw [if_neg hl] at hget'
        by_cases ht : l = o.loc
        · rw [if_pos ht] at hget'
          exact hgone hlive ((hheld.only l).mpr ht) hget'
        · rw [if_neg ht] at hget'
          exact h.origin_other hu hfirm hget' fun hf => ht ((hheld.only l).mp hf)
  | removed o hlive hheld hover hcom hget =>
      have hget' := hget l
      by_cases ht : l = o.loc
      · rw [if_pos ht] at hget'
        exact hgone hlive ((hheld.only l).mpr ht) hget'
      · rw [if_neg ht] at hget'
        exact h.origin_other hu hfirm hget' fun hf => ht ((hheld.only l).mp hf)

/-- A step of one upload. -/
theorem act (h : StoreInv k c b s) {i : Nat} {a : Act} {u u' : Upload} (ho : Orderly k c s (.act i a))
    (hu : s.uploads[i]? = some u) (hs : u.step k c s.disk a = some (d, u')) :
    StoreInv k c b ⟨d, s.uploads.set i u'⟩ := by
  obtain ⟨heff, hinode, hnext, hcommits⟩ :=
    Upload.step_effect (h.booked.grips i u hu) (h.booked.held i u hu) hs
  obtain ⟨hki, hkb, -, hkg, -, -⟩ := Upload.step_keeps hs
  have hmem : u ∈ s.uploads := List.mem_of_getElem? hu
  have hfirm : Firm s.disk.tree d.tree := by
    apply firm_of_effect heff
    intro hl hcom D n hslot
    obtain ⟨f, ha, hc⟩ := hcommits hl.1 hcom
    refine ho.2 i u f ?_ hu hc D n hslot
    rcases ha with rfl | rfl
    · exact .inl rfl
    · exact .inr rfl
  have hback : u'.Live → u.Live := by
    intro hl
    cases heff with
    | quiet htree hlive hcom => exact hlive hl
    | renamed o m hlive hheld hcom hslot hnd hget hlands => exact hlive
    | removed o hlive hheld hgone hcom hget => exact hlive
  refine ⟨Server.booked_act h.booked ho.1 hu hs, ?_, ?_, ?_, ?_, ?_⟩
  · rw [show d.next = s.disk.next from hnext]
    exact h.next
  · apply all_set h.new
    rw [hki]
    exact h.new u hmem
  · apply all_set fun v hv hl => (h.born v hv hl).trans hfirm
    intro hl
    rw [hkb]
    exact (h.born u hmem (hback hl)).trans hfirm
  · intro j hj
    have hnew := h.new u hmem
    rw [hinode j (by omega)]
    exact h.inode j hj
  · exact h.origin_act hu hs heff hfirm

/-- A step of the store. -/
theorem step (h : StoreInv k c b s) {fs : AutoMkcolFs} {e : AutoFs.Event} {s' : AutoFs.Server}
    (ho : Orderly k c s e) (hs : s.step k c fs e = some s') : StoreInv k c b s' := by
  cases e with
  | open_ path options fault =>
      simp only [Server.step] at hs
      split at hs
      · rename_i d af hop
        cases hs
        obtain ⟨dm, o, hens, hopening, -⟩ := AutoMkcolFs.open_spec hop
        have hgrows := AutoMkcolFs.ensure_parent_grows k fs s.disk path fault.parent
        rw [hens] at hgrows
        obtain ⟨hg, hi, hn⟩ := hgrows
        exact (h.grow hg hi hn).add hopening
      · rename_i d e hop
        cases hs
        obtain ⟨hg, hi, hn⟩ := Server.open_error hop
        exact h.grow hg hi hn
      · cases hs
  | act i a =>
      simp only [Server.step] at hs
      split at hs
      · cases hs
      · rename_i u hu
        obtain ⟨⟨d, u'⟩, hst, rfl⟩ := Option.map_eq_some_iff.mp hs
        exact h.act ho hu hst

end StoreInv

/-- A `MKCOL` makes directories, and nothing else. -/
theorem create_dir_grows (k : Kernel) (fs : AutoMkcolFs) (d : Disk) (path : List String)
    (parent : Option (Errno × Nat)) (fault : Option Errno) :
    Grows d.tree (fs.create_dir k d path parent fault).1.tree ∧
      (fs.create_dir k d path parent fault).1.inode = d.inode ∧
      (fs.create_dir k d path parent fault).1.next = d.next := by
  have hens := AutoMkcolFs.ensure_parent_grows k fs d path parent
  unfold AutoMkcolFs.create_dir
  split
  · rename_i d₁ e he
    rw [he] at hens
    exact hens
  · rename_i d₁ he
    rw [he] at hens
    obtain ⟨hg, hi, hn⟩ := hens
    split
    · rename_i d₂ hmk
      -- the `mkdir` itself
      unfold Disk.create_dir at hmk
      split at hmk
      · cases hmk
      · split at hmk
        · cases hmk
        · rename_i t ht
          cases hmk
          exact ⟨hg.trans (Kernel.mkdir_grows ht), hi, hn⟩
    · exact ⟨hg, hi, hn⟩
    · exact ⟨hg, hi, hn⟩

/-! ## `serve` -/

/-- Where a connection is: before its TLS handshake is done, between two requests, with a
request before the handler, broken off, closed. A handler has the uploads open that it
has begun, by their numbers. -/
inductive Stage where
  | handshake
  | idle
  | handling (req : Request) (held : List Nat)
  | broken (held : List Nat)
  | closed

/-- The uploads a connection has to drop before it is closed. -/
def Stage.held : Stage → List Nat
  | .handling _ held => held
  | .broken held => held
  | _ => []

/-- The future of the connection is dropped, if it has not been yet. -/
def Stage.cut : Stage → Option Stage
  | .handshake => some .closed
  | .idle => some .closed
  | .handling _ held => some (.broken held)
  | .broken _ => none
  | .closed => none

/-- A connection, and what has been exchanged on it. -/
structure Conn where
  stage : Stage
  exchanges : List Exchange

/-- Where `serve` is: in its loop, waiting for the connections that are left, past that. -/
inductive Phase where
  | accepting
  | draining
  | leaving
deriving DecidableEq

/-- The server, and which requests have come before the handler. -/
structure System where
  phase : Phase
  conns : List Conn
  store : AutoFs.Server
  handled : List Request

/-- What happens: a connection comes in, or `accept` fails; a signal comes; all tasks are
over, or the grace period is; and to the connection `i`, its handshake ends, a request
comes, the handler opens an upload, goes on with the upload `j`, makes a directory, or
answers; it is lost or dropped; of what it leaves behind, the upload `j` is dropped, and
then it is closed. -/
inductive Event where
  | accept
  | accept_failed
  | signal
  | drained
  | handshake (i : Nat) (ok : Bool)
  | request (i : Nat) (req : Request)
  | open_ (i : Nat) (path : List String) (options : OpenOptions) (fault : OpenFault)
  | act (i j : Nat) (a : Act)
  | mkcol (i : Nat) (path : List String) (parent : Option (Errno × Nat)) (fault : Option Errno)
  | respond (i : Nat) (r : Response)
  | lost (i : Nat)
  | drop (i j : Nat)
  | close (i : Nat)

namespace System

/-- Nothing has come yet. -/
def init (d : Disk) : System := ⟨.accepting, [], ⟨d, []⟩, []⟩

/-- The connection `i` is at another stage. -/
def goes (s : System) (i : Nat) (x : Conn) : System := { s with conns := s.conns.set i x }

/-- Of these uploads none is open any more. -/
def shut (s : System) (held : List Nat) : Bool :=
  held.all fun j => (s.store.uploads[j]?).all fun u => u.stage = .dropped

/-- The uploads that are in the store `st`, and were not before. -/
def begun (s : System) (st : AutoFs.Server) : List Nat :=
  List.range' s.store.uploads.length (st.uploads.length - s.store.uploads.length)

end System

section Serve

variable (k : Kernel) (c : Crates) (http : HttpCrates) (decode : String → Option Bytes)
  (cfg : Config)

/-- What comes of a request; `handled` is what the handler answers, if it is asked. -/
def exchange (req : Request) (handled : Response) : Exchange :=
  service http decode cfg.auth cfg.webhook req handled

/-- One step of the server. -/
def System.step (s : System) : Event → Option System
  | .accept =>
    if s.phase = .accepting then
      some { s with conns := s.conns ++ [⟨if cfg.no_tls then .idle else .handshake, []⟩] }
    else none
  | .accept_failed => if s.phase = .accepting then some { s with phase := .leaving } else none
  | .signal => if s.phase = .accepting then some { s with phase := .draining } else none
  | .drained => if s.phase = .draining then some { s with phase := .leaving } else none
  | .handshake i ok =>
    match s.conns[i]? with
    | some ⟨.handshake, xs⟩ => some (s.goes i ⟨if ok then .idle else .closed, xs⟩)
    | _ => none
  | .request i req =>
    match s.conns[i]? with
    | some ⟨.idle, xs⟩ =>
      -- the handler has not answered yet
      let x := exchange http decode cfg req ⟨0, []⟩
      if .handle ∈ x.effects then
        some { s.goes i ⟨.handling req [], xs⟩ with handled := s.handled ++ [req] }
      else some (s.goes i ⟨.idle, xs ++ [x]⟩)
    | _ => none
  | .open_ i path options fault =>
    match s.conns[i]? with
    | some ⟨.handling req held, xs⟩ =>
      (s.store.step k c (Tls.filesystem cfg) (.open_ path options fault)).map fun st =>
        { s.goes i ⟨.handling req (held ++ s.begun st), xs⟩ with store := st }
    | _ => none
  | .act i j a =>
    match s.conns[i]? with
    | some ⟨.handling _ held, _⟩ =>
      if j ∈ held then
        (s.store.step k c (Tls.filesystem cfg) (.act j a)).map fun st => { s with store := st }
      else none
    | _ => none
  | .mkcol i path parent fault =>
    match s.conns[i]? with
    | some ⟨.handling _ _, _⟩ =>
      let d := ((Tls.filesystem cfg).create_dir k s.store.disk path parent fault).1
      some { s with store := ⟨d, s.store.uploads⟩ }
    | _ => none
  | .respond i r =>
    match s.conns[i]? with
    | some ⟨.handling req held, xs⟩ =>
      if s.shut held then some (s.goes i ⟨.idle, xs ++ [exchange http decode cfg req r]⟩) else none
    | _ => none
  | .lost i =>
    (s.conns[i]?).bind fun x => x.stage.cut.map fun st => s.goes i ⟨st, x.exchanges⟩
  | .drop i j =>
    match s.conns[i]? with
    | some ⟨.broken held, _⟩ =>
      if j ∈ held then
        (s.store.step k c (Tls.filesystem cfg) (.act j .drop)).map fun st => { s with store := st }
      else none
    | _ => none
  | .close i =>
    match s.conns[i]? with
    | some ⟨.broken held, xs⟩ => if s.shut held then some (s.goes i ⟨.closed, xs⟩) else none
    | _ => none

/-- What a step can come to: one more connection; another phase; a connection at another
stage; a request before the handler; and a step of the store, for a handler or after it
has been broken off. -/
inductive System.StepCase (s : System) : Event → System → Prop where
  | accepted (x : Conn) (hp : s.phase = .accepting) (hx : x.stage = .idle ∨ x.stage = .handshake) :
      StepCase s .accept { s with conns := s.conns ++ [x] }
  | phase (e : Event) (p : Phase) : StepCase s e { s with phase := p }
  | moved (e : Event) (i : Nat) (x y : Conn) (hi : s.conns[i]? = some x)
      (hy : ∀ req held, y.stage ≠ .handling req held)
      (hheld : y.stage.held = x.stage.held ∨ s.shut x.stage.held = true) :
      StepCase s e (s.goes i y)
  | admitted (i : Nat) (req : Request) (xs : List Exchange) (hi : s.conns[i]? = some ⟨.idle, xs⟩)
      (hx : .handle ∈ (exchange http decode cfg req ⟨0, []⟩).effects) :
      StepCase s (.request i req)
        { s.goes i ⟨.handling req [], xs⟩ with handled := s.handled ++ [req] }
  | opened (i : Nat) (path : List String) (options : OpenOptions) (fault : OpenFault)
      (req : Request) (held : List Nat) (xs : List Exchange) (st : AutoFs.Server)
      (hi : s.conns[i]? = some ⟨.handling req held, xs⟩)
      (hst : s.store.step k c (Tls.filesystem cfg) (.open_ path options fault) = some st) :
      StepCase s (.open_ i path options fault)
        { s.goes i ⟨.handling req (held ++ s.begun st), xs⟩ with store := st }
  | acted (e : Event) (i j : Nat) (a : Act) (x : Conn) (st : AutoFs.Server)
      (he : e = .act i j a ∨ a = .drop) (hi : s.conns[i]? = some x) (hj : j ∈ x.stage.held)
      (hst : s.store.step k c (Tls.filesystem cfg) (.act j a) = some st) :
      StepCase s e { s with store := st }
  | made (i : Nat) (path : List String) (parent : Option (Errno × Nat)) (fault : Option Errno)
      (req : Request) (held : List Nat) (xs : List Exchange)
      (hi : s.conns[i]? = some ⟨.handling req held, xs⟩) :
      StepCase s (.mkcol i path parent fault)
        { s with store := ⟨((Tls.filesystem cfg).create_dir k s.store.disk path parent fault).1,
            s.store.uploads⟩ }

variable {k c http decode cfg}

theorem System.step_cases {s s' : System} {e : Event}
    (hs : s.step k c http decode cfg e = some s') :
    s.StepCase k c http decode cfg e s' := by
  cases e with
  | accept =>
      simp only [System.step] at hs
      split at hs
      · rename_i hp
        cases hs
        -- a task that is spawned after the signal is closed at once
        refine .accepted _ hp ?_
        dsimp only
        split
        · exact .inl rfl
        · exact .inr rfl
      · cases hs
  -- these three only move the loop of `serve` on
  | accept_failed =>
      simp only [System.step] at hs
      split at hs
      · cases hs
        exact .phase _ _
      · cases hs
  | signal =>
      simp only [System.step] at hs
      split at hs
      · cases hs
        exact .phase _ _
      · cases hs
  | drained =>
      simp only [System.step] at hs
      split at hs
      · cases hs
        exact .phase _ _
      · cases hs
  | handshake i ok =>
      simp only [System.step] at hs
      split at hs
      · rename_i xs hi
        cases hs
        refine .moved _ i _ _ hi ?_ (.inr rfl)
        intro req held
        cases ok <;> simp
      · cases hs
  | request i req =>
      simp only [System.step] at hs
      split at hs
      · rename_i xs hi
        split at hs
        · rename_i hx
          cases hs
          exact .admitted i req xs hi hx
        · cases hs
          exact .moved _ i _ _ hi (by simp) (.inr rfl)
      · cases hs
  | open_ i path options fault =>
      simp only [System.step] at hs
      split at hs
      · rename_i req held xs hi
        obtain ⟨st, hst, rfl⟩ := Option.map_eq_some_iff.mp hs
        exact .opened i path options fault req held xs st hi hst
      · cases hs
  | act i j a =>
      simp only [System.step] at hs
      split at hs
      · rename_i req held xs hi
        split at hs
        · rename_i hj
          obtain ⟨st, hst, rfl⟩ := Option.map_eq_some_iff.mp hs
          exact .acted _ i j a _ st (.inl rfl) hi hj hst
        · cases hs
      · cases hs
  | mkcol i path parent fault =>
      simp only [System.step] at hs
      split at hs
      · rename_i req held xs hi
        cases hs
        exact .made i path parent fault req held xs hi
      · cases hs
  | respond i r =>
      simp only [System.step] at hs
      split at hs
      · rename_i req held xs hi
        split at hs
        · rename_i hover
          cases hs
          exact .moved _ i _ _ hi (by simp) (.inr hover)
        · cases hs
      · cases hs
  -- a connection is lost in any stage but the last two; what it held is still to be dropped
  | lost i =>
      obtain ⟨x, hi, hs⟩ := Option.bind_eq_some_iff.mp hs
      obtain ⟨st, hst, rfl⟩ := Option.map_eq_some_iff.mp hs
      obtain ⟨stage, xs⟩ := x
      cases stage with
      | handling req held =>
          cases hst
          exact .moved _ i _ _ hi (by simp) (.inl rfl)
      | handshake =>
          cases hst
          exact .moved _ i _ _ hi (by simp) (.inl rfl)
      | idle =>
          cases hst
          exact .moved _ i _ _ hi (by simp) (.inl rfl)
      | broken held => cases hst
      | closed => cases hst
  -- dropping a file is one of the acts on it, and is also done for a connection that broke
  | drop i j =>
      simp only [System.step] at hs
      split at hs
      · rename_i held xs hi
        split at hs
        · rename_i hj
          obtain ⟨st, hst, rfl⟩ := Option.map_eq_some_iff.mp hs
          exact .acted _ i j .drop _ st (.inr rfl) hi hj hst
        · cases hs
      · cases hs
  | close i =>
      simp only [System.step] at hs
      split at hs
      · rename_i held xs hi
        split at hs
        · rename_i hover
          cases hs
          exact .moved _ i _ _ hi (by simp) (.inr hover)
        · cases hs
      · cases hs

/-! ## Who gets to the disk -/

/-- The request has the credentials of the configuration, if there are any. -/
def Allowed (http : HttpCrates) (decode : String → Option Bytes) (cfg : Config) (req : Request) :
    Prop :=
  ∀ a, cfg.auth = some a → a.is_authorized http decode req.headers = true

/-- The invariant of the connections: a request that is before the handler is one of
those that have been; these had the credentials; before the first of them nothing has
happened to the disk; and an upload that is not dropped is held by a connection. -/
structure System.Inv (http : HttpCrates) (decode : String → Option Bytes) (cfg : Config)
    (b : Disk) (s : System) :
    Prop where
  handling : ∀ x ∈ s.conns, ∀ req held, x.stage = .handling req held → req ∈ s.handled
  allowed : ∀ req ∈ s.handled, Allowed http decode cfg req
  still : s.handled = [] → s.store = ⟨b, []⟩
  held : ∀ j u, s.store.uploads[j]? = some u → u.stage ≠ .dropped →
    ∃ x ∈ s.conns, j ∈ x.stage.held

theorem System.Inv.init : (System.init b).Inv http decode cfg b where
  handling := by simp [System.init]
  allowed := by simp [System.init]
  still _ := rfl
  held := by simp [System.init]

theorem System.shut_dropped {s : System} {held : List Nat} (h : s.shut held = true) {j : Nat}
    (hj : j ∈ held) {u : Upload} (hu : s.store.uploads[j]? = some u) : u.stage = .dropped := by
  have hall := List.all_eq_true.mp h j hj
  rw [hu] at hall
  simpa using hall

/-- An upload that takes a step has not been dropped. -/
theorem open_of_step {d : Disk} {u : Upload} {a : Act} {x : Disk × Upload}
    (hs : u.step k c d a = some x) : u.stage ≠ .dropped := by
  cases Upload.step_cases hs with
  | wrote call hw => simp [hw]
  | committed _ fault st ha hst hst' =>
      rcases hst with hst | hst <;> simp [hst]
  | dropped hst => exact hst

/-- What a step of the store does to the list of uploads. -/
theorem store_open {fs : AutoMkcolFs} {s st : AutoFs.Server} {path : List String}
    {options : OpenOptions} {fault : OpenFault}
    (h : s.step k c fs (.open_ path options fault) = some st) :
    st.uploads = s.uploads ∨ ∃ u, st.uploads = s.uploads ++ [u] := by
  simp only [Server.step] at h
  split at h
  · cases h
    exact .inr ⟨_, rfl⟩
  · cases h
    exact .inl rfl
  · cases h

theorem store_act {fs : AutoMkcolFs} {s st : AutoFs.Server} {j : Nat} {a : Act}
    (h : s.step k c fs (.act j a) = some st) :
    ∃ u d u', s.uploads[j]? = some u ∧ u.step k c s.disk a = some (d, u') ∧
      st = ⟨d, s.uploads.set j u'⟩ := by
  simp only [Server.step] at h
  split at h
  · cases h
  · rename_i u hu
    obtain ⟨⟨d, u'⟩, hst, rfl⟩ := Option.map_eq_some_iff.mp h
    exact ⟨u, d, u', hu, hst, rfl⟩

namespace System.Inv

variable {s s' : System}

/-- Of a connection whose stage changes, each open upload stays with it. -/
theorem moved (h : s.Inv http decode cfg b) {i : Nat} {x y : Conn} (hi : s.conns[i]? = some x)
    (hy : ∀ req held, y.stage = .handling req held → req ∈ s.handled)
    (hheld : ∀ j ∈ x.stage.held, j ∈ y.stage.held ∨ s.shut x.stage.held = true) :
    (s.goes i y).Inv http decode cfg b where
  handling := all_set h.handling hy
  allowed := h.allowed
  still := h.still
  held j u hu hopen := by
    obtain ⟨z, hz, hj⟩ := h.held j u hu hopen
    rcases mem_set_of_mem hi hz with rfl | hz'
    · rcases hheld j hj with hj' | hover
      · exact ⟨y, mem_set_self hi, hj'⟩
      · exact absurd (shut_dropped hover hj hu) hopen
    · exact ⟨z, hz', hj⟩

/-- **What a step leaves of it.** -/
theorem step (h : s.Inv http decode cfg b) {e : Event}
    (hs : s.step k c http decode cfg e = some s') :
    s'.Inv http decode cfg b := by
  cases System.step_cases hs with
  | accepted x hp hx =>
      refine ⟨?_, h.allowed, h.still, ?_⟩
      · intro z hz req held hst
        rcases List.mem_append.mp hz with hz | hz
        · exact h.handling z hz req held hst
        · rw [List.mem_singleton.mp hz] at hst
          rcases hx with hx | hx <;> simp [hx] at hst
      · intro j u hu hopen
        obtain ⟨z, hz, hj⟩ := h.held j u hu hopen
        exact ⟨z, List.mem_append_left _ hz, hj⟩
  | phase e p => exact ⟨h.handling, h.allowed, h.still, h.held⟩
  | moved e i x y hi hy hheld =>
      apply h.moved hi
      · exact fun req held hst => absurd hst (hy req held)
      · intro j hj
        rcases hheld with he | hover
        · rw [he]
          exact .inl hj
        · exact .inr hover
  | admitted i req xs hi hx =>
      -- the handler is asked only with credentials
      have hreq : Allowed http decode cfg req := fun a ha => handle_service hx a ha
      have hm : System.Inv http decode cfg b { s with handled := s.handled ++ [req] } := by
        refine ⟨?_, ?_, fun hnil => absurd hnil (by simp), h.held⟩
        · intro x hx r held hst
          exact List.mem_append_left _ (h.handling x hx r held hst)
        · intro r hr
          rcases List.mem_append.mp hr with hr | hr
          · exact h.allowed r hr
          · rw [List.mem_singleton.mp hr]
            exact hreq
      apply hm.moved hi
      · intro r held hst
        cases hst
        exact List.mem_append_right _ List.mem_cons_self
      · exact fun j hj => absurd hj (by simp [Stage.held])
  | opened i path options fault req held xs st hi hst =>
      have hreq : req ∈ s.handled := h.handling _ (List.mem_of_getElem? hi) req held rfl
      refine ⟨?_, h.allowed, fun hnil => absurd hreq (by simp [show s.handled = [] from hnil]), ?_⟩
      · apply all_set h.handling
        intro r held' hst'
        cases hst'
        exact hreq
      · intro j u hu hopen
        have hself : (⟨.handling req (held ++ s.begun st), xs⟩ : Conn) ∈ s.conns.set i
            ⟨.handling req (held ++ s.begun st), xs⟩ := mem_set_self hi
        by_cases hlt : j < s.store.uploads.length
        · -- it was there before
          have hu' : s.store.uploads[j]? = some u := by
            rcases store_open hst with he | ⟨v, he⟩
            · rw [← he]
              exact hu
            · rw [show ({ s.goes i _ with store := st } : System).store.uploads = _ from he,
                List.getElem?_append_left hlt] at hu
              exact hu
          obtain ⟨z, hz, hj⟩ := h.held j u hu' hopen
          rcases mem_set_of_mem hi hz with rfl | hz'
          · exact ⟨_, hself, List.mem_append_left _ hj⟩
          · exact ⟨z, hz', hj⟩
        · refine ⟨_, hself, List.mem_append_right _ ?_⟩
          have hlt' : j < st.uploads.length := (List.getElem?_eq_some_iff.mp hu).1
          rw [begun, List.mem_range'_1]
          omega
  | acted e i j a x st he hi hj hst =>
      obtain ⟨u, d, u', hu, hact, rfl⟩ := store_act hst
      refine ⟨h.handling, h.allowed, fun hnil => ?_, ?_⟩
      · -- without a request there is no upload
        have hstore := h.still hnil
        rw [hstore] at hu
        cases hu
      · intro l v hv hopen
        by_cases hl : l = j
        · obtain ⟨z, hz, hj'⟩ := h.held j u hu (open_of_step hact)
          rw [hl]
          exact ⟨z, hz, hj'⟩
        · apply h.held l v _ hopen
          rw [← hv]
          exact (List.getElem?_set_ne fun he => hl he.symm).symm
  | made i path parent fault req held xs hi =>
      have hreq : req ∈ s.handled := h.handling _ (List.mem_of_getElem? hi) req held rfl
      exact ⟨h.handling, h.allowed, fun hnil => absurd hreq (by simp [show s.handled = [] from hnil]),
        h.held⟩

end System.Inv

/-! ## What is on the disk -/

/-- Every commit of the step is an orderly one. -/
def System.Orderly (k : Kernel) (c : Crates) (s : System) (e : Event) : Prop :=
  ∀ i j a, e = .act i j a → Restart.Orderly k c s.store (.act j a)

theorem store_inv_step {s s' : System} {e : Event} (h : StoreInv k c b s.store) (ho : s.Orderly k c e)
    (hs : s.step k c http decode cfg e = some s') : StoreInv k c b s'.store := by
  cases System.step_cases hs with
  | accepted x hp hx => exact h
  | phase e p => exact h
  | moved e i x y hi hy hheld => exact h
  | admitted i req xs hi hx => exact h
  | opened i path options fault req held xs st hi hst =>
      exact h.step (orderly_of_no_commit (by simp)) hst
  | acted e i j a x st he hi hj hst =>
      rcases he with rfl | rfl
      · exact h.step (ho i j a rfl) hst
      · exact h.step (orderly_of_no_commit (by simp)) hst
  | made i path parent fault req held xs hi =>
      obtain ⟨hg, hi, hn⟩ :=
        create_dir_grows k (Tls.filesystem cfg) s.store.disk path parent fault
      exact h.grow hg hi hn

/-- What is at `l` was there before, or is a directory that has been made there, or is an
upload that has come to its target with all of its bytes. -/
def Intact (k : Kernel) (c : Crates) (b : Disk) (s : AutoFs.Server) (l : Loc) : Prop :=
  s.disk.tree.get l = b.tree.get l ∨
    (b.tree.get l = none ∧ s.disk.tree.get l = some .dir) ∨
    ∃ u ∈ s.uploads, s.disk.tree.get l = some (.file u.ino) ∧ Arrived k s.disk.tree u l ∧
      (s.disk.inode u.ino).content = u.sent ∧ u.Complete c

/-- What is at `l` is the temp file of an upload under way, and nothing was there. -/
def UnderWay (b : Disk) (s : AutoFs.Server) (l : Loc) : Prop :=
  b.tree.get l = none ∧ ∃ u ∈ s.uploads, u.Live ∧ s.disk.tree.get l = some (.file u.ino)

theorem StoreInv.intact {s : AutoFs.Server} (h : StoreInv k c b s) (l : Loc) :
    Intact k c b s l ∨ UnderWay b s l := by
  rcases h.origin l with ho | ho | ⟨u, hu, hf, ⟨hl, hnone⟩ | ha⟩
  · exact .inl (.inl ho)
  · exact .inl (.inr (.inl ho))
  · exact .inr ⟨hnone, u, hu, hl, hf⟩
  · obtain ⟨i, hi⟩ := List.mem_iff_getElem?.mp hu
    obtain ⟨hcont, hcomp⟩ := (h.booked.books i u hi).sealed ha.1
    exact .inl (.inr (.inr ⟨u, hu, hf, ha, hcont, hcomp⟩))

/-! ## The end -/

/-- The loop has been left, and no connection is open any more. -/
def System.Left (s : System) : Prop := s.phase = .leaving ∧ ∀ x ∈ s.conns, x.stage = .closed

/-- Tasks are dropped, one after another, with what they hold. -/
def Dropping (_ : System) : Event → Prop
  | .lost _ => True
  | .drop _ _ => True
  | .close _ => True
  | _ => False

/-- How much of a connection is left to drop, besides its uploads. -/
def Stage.left : Stage → Nat
  | .handshake => 1
  | .idle => 1
  | .handling _ _ => 2
  | .broken _ => 1
  | .closed => 0

/-- How much is left to drop. -/
def System.left (s : System) : Nat :=
  (s.conns.map fun x => x.stage.left).sum +
    (s.store.uploads.map fun u => if u.stage = .dropped then 0 else 1).sum

theorem Stage.closed_of_left {x : Stage} (h : x.left = 0) : x = .closed := by
  cases x with
  | closed => rfl
  | _ => cases h

theorem left_goes {s : System} {i : Nat} {x y : Conn} (hi : s.conns[i]? = some x)
    (h : y.stage.left < x.stage.left) : (s.goes i y).left < s.left := by
  have hsum := sum_set (fun x : Conn => x.stage.left) y hi
  simp only [System.left, System.goes]
  omega

theorem cut_less {x y : Stage} (h : x.cut = some y) : y.left < x.left := by
  cases x with
  | broken held => cases h
  | closed => cases h
  | handshake =>
      cases h
      decide
  | idle =>
      cases h
      decide
  | handling req held =>
      cases h
      exact Nat.lt_succ_self 1

/-- **Each drop leaves less to drop.** -/
theorem left_less {s s' : System} {e : Event} (hc : Dropping s e)
    (hs : s.step k c http decode cfg e = some s') : s'.left < s.left ∧ s'.phase = s.phase := by
  cases e with
  | lost i =>
      obtain ⟨x, hi, hs⟩ := Option.bind_eq_some_iff.mp hs
      obtain ⟨st, hst, rfl⟩ := Option.map_eq_some_iff.mp hs
      exact ⟨left_goes hi (cut_less hst), rfl⟩
  | drop i j =>
      simp only [System.step] at hs
      split at hs
      · split at hs
        · obtain ⟨st, hst, rfl⟩ := Option.map_eq_some_iff.mp hs
          obtain ⟨u, d, u', hu, hact, rfl⟩ := store_act hst
          -- it was not dropped before and it is now, so there is one less
          have hopen := open_of_step hact
          have hdone : u'.stage = .dropped := by
            simp only [Upload.step, if_neg hopen, Option.some.injEq, Prod.mk.injEq] at hact
            rw [← hact.2]
          have hsum := sum_set (fun u : Upload => if u.stage = .dropped then 0 else 1) u' hu
          rw [if_neg hopen, if_pos hdone] at hsum
          refine ⟨?_, rfl⟩
          simp only [System.left]
          omega
        · cases hs
      · cases hs
  | close i =>
      simp only [System.step] at hs
      split at hs
      · rename_i held xs hi
        split at hs
        · cases hs
          exact ⟨left_goes hi Nat.zero_lt_one, rfl⟩
        · cases hs
      · cases hs
  | _ => exact hc.elim

/-- As long as a connection is open, something can be dropped. -/
theorem goes_on (s : System) (hp : s.phase = .leaving) :
    s.Left ∨ ∃ e s', Dropping s e ∧ s.step k c http decode cfg e = some s' := by
  by_cases h : ∀ x ∈ s.conns, x.stage = .closed
  · exact .inl ⟨hp, h⟩
  · right
    simp only [not_forall] at h
    obtain ⟨x, hx, hopen⟩ := h
    obtain ⟨i, hi⟩ := List.mem_iff_getElem?.mp hx
    obtain ⟨stage, xs⟩ := x
    cases stage with
    | closed => exact absurd rfl hopen
    | handshake => exact ⟨.lost i, _, trivial, by simp only [System.step, hi]; rfl⟩
    | idle => exact ⟨.lost i, _, trivial, by simp only [System.step, hi]; rfl⟩
    | handling req held => exact ⟨.lost i, _, trivial, by simp only [System.step, hi]; rfl⟩
    | broken held =>
        cases hover : s.shut held with
        | true =>
            refine ⟨.close i, s.goes i ⟨.closed, xs⟩, trivial, ?_⟩
            simp only [System.step, hi, hover, if_true]
        | false =>
            -- one of its uploads is open
            obtain ⟨j, hj, hno⟩ := List.all_eq_false.mp hover
            cases hu : s.store.uploads[j]? with
            | none => simp [hu] at hno
            | some u =>
                have hdrop : u.stage ≠ .dropped := by simpa [hu] using hno
                obtain ⟨st, hst⟩ : ∃ st, s.store.step k c (Tls.filesystem cfg) (.act j .drop)
                    = some st := by
                  simp only [Server.step, hu, Upload.step, if_neg hdrop]
                  exact ⟨_, rfl⟩
                refine ⟨.drop i j, { s with store := st }, trivial, ?_⟩
                simp only [System.step, hi, if_pos hj, hst, Option.map_some]

end Serve

/-- **A restart does no harm**, whatever the clients do, whichever connections are lost,
and wherever the uploads under way are when the loop is left: nobody gets to the disk
without credentials; files that were there keep their contents as long as they are not
replaced; every entry is there from before, or a directory, or an upload that is whole,
or a temp file; and once the loop has been left, the tasks that remain can be dropped in
any order, and then there are no temp files any more. -/
theorem restart_clean (k : Kernel) (c : Crates) (http : HttpCrates)
    (decode : String → Option Bytes) (cfg : Config)
    (b : Disk) (s : System)
    (hs : Reach (System.step k c http decode cfg) (System.Orderly k c) (.init b) s) :
    (∀ req ∈ s.handled, Allowed http decode cfg req) ∧ (s.handled = [] → s.store.disk = b) ∧
      (∀ i < b.next, s.store.disk.inode i = b.inode i) ∧
      (∀ l, Intact k c b s.store l ∨ UnderWay b s.store l) ∧
      (s.phase = .leaving → Ends (System.step k c http decode cfg) Dropping
        (fun s => s.Left ∧ (∀ i < b.next, s.store.disk.inode i = b.inode i) ∧
          ∀ l, Intact k c b s.store l) s) := by
  have hI : s.Inv http decode cfg b ∧ StoreInv k c b s.store := by
    apply hs.inv (I := fun s => s.Inv http decode cfg b ∧ StoreInv k c b s.store)
    · exact ⟨.init, StoreInv.start k c b⟩
    · exact fun _ _ _ hI ho hst => ⟨hI.1.step hst, store_inv_step hI.2 ho hst⟩
  obtain ⟨hinv, hkept⟩ := hI
  refine ⟨hinv.allowed, fun hnil => by rw [hinv.still hnil], hkept.inode, hkept.intact, ?_⟩
  intro hp
  apply ends_of_measure Nat.lt_wfRel.wf System.left
    (I := fun s => s.Inv http decode cfg b ∧ StoreInv k c b s.store ∧ s.phase = .leaving)
  · intro s e s' hI hc hst
    -- a drop is as orderly as can be
    have ho : s.Orderly k c e := by
      rintro i j a rfl
      exact hc.elim
    exact ⟨hI.1.step hst, store_inv_step hI.2.1 ho hst, (left_less hc hst).2.trans hI.2.2⟩
  · intro s hI
    rcases goes_on s hI.2.2 with hleft | hgo
    · refine .inl ⟨hleft, hI.2.1.inode, fun l => ?_⟩
      rcases hI.2.1.intact l with hl | ⟨-, u, hu, hlive, -⟩
      · exact hl
      · -- an upload under way would be held by a connection
        obtain ⟨j, hj⟩ := List.mem_iff_getElem?.mp hu
        obtain ⟨x, hx, hheld⟩ := hI.1.held j u hj hlive.2
        rw [hleft.2 x hx] at hheld
        cases hheld
    · exact .inr hgo
  · exact fun _ _ _ _ hc hst => (left_less hc hst).1
  · exact ⟨hinv, hkept, hp⟩

/-- Whether what is at the target of the upload `j` passes the test `p`. -/
def target_is (p : Option (Entry Nat) → Bool) (k : Kernel) (s : System) (j : Nat) : Bool :=
  (s.store.uploads[j]?).all fun u =>
    (k.slot s.store.disk.tree u.af.target_path).all fun x => p (s.store.disk.tree.get (x.1 ++ [x.2]))

/-- Whether a step that may commit an upload finds something that passes `p` at its
target. -/
def onto (p : Option (Entry Nat) → Bool) (k : Kernel) (s : System) : Event → Bool
  | .act _ j (.flush _) => target_is p k s j
  | .act _ j (.metadata _) => target_is p k s j
  | _ => true

theorem onto_spec {p : Option (Entry Nat) → Bool} {k : Kernel} {s : System} {i j : Nat} {a : Act}
    (h : onto p k s (.act i j a) = true) {l : Nat} {u : Upload} {f : AtomicFile.CommitFault}
    (he : AutoFs.Event.act j a = .act l (.flush f) ∨ AutoFs.Event.act j a = .act l (.metadata f))
    (hu : s.store.uploads[l]? = some u) {d : Loc} {n : String}
    (hslot : k.slot s.store.disk.tree u.af.target_path = some (d, n)) :
    p (s.store.disk.tree.get (d ++ [n])) = true := by
  have hp : target_is p k s l = true := by
    rcases he with he | he
    · cases he
      exact h
    · cases he
      exact h
  simpa [target_is, hu, hslot] using hp

theorem onto_nothing_orderly {k : Kernel} {c : Crates} (s : System) (e : Event)
    (h : onto Option.isNone k s e = true) : s.Orderly k c e := by
  rintro i j a rfl
  refine ⟨?_, ?_⟩
  · intro l u f he hu _ d n hslot m v _ _ _
    rw [Option.isNone_iff_eq_none.mp (onto_spec h he hu hslot)]
    simp
  · intro l u f he hu _ d n hslot
    exact linkAt_of_none (Option.isNone_iff_eq_none.mp (onto_spec h he hu hslot))

/-- A configuration with credentials, on the root of the disk. -/
def guarded : Config := { no_secret with root := ⟨Path.abs [], "/", .none⟩ }

/-- A `PUT` with these credentials. -/
def put_request (path : String) : Request :=
  ⟨"PUT", path, [("authorization", as_bytes "Basic dTpw")]⟩

/-- Base64, as far as the run below asks for it. -/
def decoder (s : String) : Option Bytes := if s = "dTpw" then some (as_bytes "u:p") else none

/-- Two uploads, one of which has come to its target when the loop is left. -/
theorem restart_clean_two : ∃ s,
    Reach (System.step host digests .real decoder guarded) (System.Orderly host digests)
      (.init .blank) s ∧ s.phase = .leaving ∧
      (s.store.uploads.map fun u => u.af.committed) = [true, false] ∧
      Ends (System.step host digests .real decoder guarded) Dropping
        (fun s => s.Left ∧ (∀ i < Disk.blank.next, s.store.disk.inode i = Disk.blank.inode i) ∧
          ∀ l, Intact host digests .blank s.store l) s := by
  have hrun : ((exec_if (System.step host digests .real decoder guarded) (onto Option.isNone host)
      (.init .blank) [.accept, .handshake 0 true, .accept, .handshake 1 true,
        .request 0 (put_request "/a"), .open_ 0 ["a"] (putting none) unhindered,
        .request 1 (put_request "/b"), .open_ 1 ["b"] (putting none) unhindered,
        .act 0 0 (.write (.bytes [1] none)), .act 1 1 (.write (.bytes [2] none)), .signal,
        .act 0 0 (.flush ⟨none, none⟩), .drained]).map fun s =>
      (s.phase, s.store.uploads.map fun u => u.af.committed)) = some (.leaving, [true, false]) := by
    decide +kernel
  obtain ⟨s, hs, hout⟩ := Option.map_eq_some_iff.mp hrun
  obtain ⟨hp, hcom⟩ := Prod.mk.inj hout
  have hreach := reach_of_exec_if (C := System.Orderly host digests) onto_nothing_orderly hs
  exact ⟨s, hreach, hp, hcom, (restart_clean host digests .real decoder guarded .blank s
    hreach).2.2.2.2 hp⟩

/-- A disk with a link to a directory that is not there. -/
def dangling : Disk := Disk.of
  (FileTree.empty.with_ [] "l" (.symlink ⟨false, [.normal "d"]⟩)) (fun _ => ⟨[], none⟩) 0
  (by decide)

/-- The inode of a file. -/
def file_ino : Option (Entry Nat) → Option Nat
  | some (.file i) => some i
  | _ => none

theorem file_ino_eq_some {e : Option (Entry Nat)} {i : Nat} (h : file_ino e = some i) :
    e = some (.file i) := by
  unfold file_ino at h
  split at h
  · cases h
    rfl
  · cases h

/-- An upload that takes the place of a link leaves the temp file of another upload, which
was made behind the link, where nobody finds it. -/
theorem temp_left_behind : ¬ ∀ (k : Kernel) (c : Crates) (http : HttpCrates)
    (decode : String → Option Bytes)
    (cfg : Config) (b : Disk) (s : System),
    Reach (System.step k c http decode cfg)
      (fun s e => ∀ i j a, e = .act i j a → Apart k c s.store (.act j a)) (.init b) s →
      s.Left → ∀ l, Intact k c b s.store l := by
  intro hall
  have hrun : ((exec_if (System.step host digests .real decoder guarded)
      (onto (fun e => (file_ino e).isNone) host) (.init dangling) [.accept, .handshake 0 true,
        .accept, .handshake 1 true, .request 0 (put_request "/l"),
        .open_ 0 ["l"] (putting none) unhindered, .request 1 (put_request "/l/f"),
        .mkcol 1 ["d"] none none, .open_ 1 ["l", "f"] (putting none) unhindered,
        .act 0 0 (.flush ⟨none, none⟩), .signal, .drained, .lost 1, .drop 1 1, .close 1,
        .lost 0, .drop 0 0, .close 0]).map fun s =>
      (s.phase, s.conns.map fun x => x.stage.left,
        s.store.uploads.map fun u => (u.ino, u.af.committed),
        file_ino (s.store.disk.tree.get ["d", "f.uploading.nzk_webdavs"])))
      = some (.leaving, [0, 0], [(0, true), (1, false)], some 1) := by
    decide +kernel
  obtain ⟨s, hs, hout⟩ := Option.map_eq_some_iff.mp hrun
  simp only [Prod.mk.injEq] at hout
  obtain ⟨hp, hconns, hups, hfile⟩ := hout
  have hreach : Reach (System.step host digests .real decoder guarded)
      (fun s e => ∀ i j a, e = .act i j a → Apart host digests s.store (.act j a))
      (.init dangling) s := by
    apply reach_of_exec_if (c := onto (fun e => (file_ino e).isNone) host) _ hs
    rintro s e h i j a rfl l u f he hu _ d n hslot m v _ _ _ hget
    have hno := onto_spec h he hu hslot
    simp only [hget, file_ino, Option.isNone_some] at hno
    cases hno
  have hleft : s.Left := by
    refine ⟨hp, fun x hx => ?_⟩
    have h0 : x.stage.left ∈ [0, 0] := by
      rw [← hconns]
      exact List.mem_map_of_mem hx
    apply Stage.closed_of_left
    simpa using h0
  -- the file there is of the upload that was dropped
  rcases hall host digests .real decoder guarded dangling s hreach hleft
      ["d", "f.uploading.nzk_webdavs"] with h | ⟨-, h⟩ | ⟨u, hu, h, ⟨hcom, -⟩, -⟩
  · rw [file_ino_eq_some hfile] at h
    have hnone : (dangling.tree.get ["d", "f.uploading.nzk_webdavs"]).isNone = true := by
      decide +kernel
    rw [← h] at hnone
    cases hnone
  · rw [file_ino_eq_some hfile] at h
    cases h
  · rw [file_ino_eq_some hfile, Option.some.injEq, Entry.file.injEq] at h
    have hmem : (u.ino, u.af.committed) ∈ [(0, true), (1, false)] := by
      rw [← hups]
      exact List.mem_map_of_mem hu
    rw [← h, hcom] at hmem
    simp at hmem

end WebDavs.Restart
