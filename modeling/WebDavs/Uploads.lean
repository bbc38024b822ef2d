/-
Many uploads on one disk.

Uploads are opened, written, committed and dropped in any order, on any targets.
What keeps them apart is that a temp file is made with `create_new`: it is the
one entry with its inode, and nobody's temp path can come to mean another's. The
targets are a weaker spot. A temp name is an ordinary name, a client may upload
to it, and `commit` replaces what is at its target; `Apart` is the condition that
no commit does this to an upload in flight. Under it every temp file stays in its
place (`Placed`), and every upload's books stay right (`Booked`).
-/
import WebDavs.UploadAtomic

set_option autoImplicit false

namespace WebDavs.AutoFs

open WebDavs.Posix WebDavs.Posix.FileTree WebDavs.Steps

/-! ## The server -/

/-- The disk and every upload so far. -/
structure Server where
  disk : Disk
  uploads : List Upload

/-- A client opens an upload, or goes on with the one of a number. -/
inductive Event where
  | open_ (path : List String) (options : OpenOptions) (fault : OpenFault)
  | act (i : Nat) (a : Act)

namespace Server

/-- One step. A failed `open` may have made directories; an `open` that is not
an atomic upload is not one of these. -/
def step (k : Kernel) (c : Crates) (fs : AutoMkcolFs) (s : Server) : Event → Option Server
  | .open_ path options fault =>
    match fs.open_ k s.disk path options fault with
    | (d, .ok (.atomic af)) => some ⟨d, s.uploads ++ [Upload.start d af]⟩
    | (d, .error _) => some ⟨d, s.uploads⟩
    | (_, .ok .inner) => none
  | .act i a =>
    match s.uploads[i]? with
    | none => none
    | some u => (u.step k c s.disk a).map fun r => ⟨r.1, s.uploads.set i r.2⟩

end Server

/-- `commit` of this upload gets as far as its rename. -/
def Upload.Commits (c : Crates) (u : Upload) (f : AtomicFile.CommitFault) : Prop :=
  u.af.committed = false ∧ u.af.checksum_mismatch c = false ∧
    (if u.af.fsync && u.af.file.isSome then f.sync else none) = none ∧
    u.af.should_commit = true ∧ f.rename = none

/-- An upload that is about to commit has not got the temp file of another
upload in flight for its target. -/
def Apart (k : Kernel) (c : Crates) (s : Server) (e : Event) : Prop :=
  ∀ i u f, e = .act i (.flush f) ∨ e = .act i (.metadata f) → s.uploads[i]? = some u →
    u.Commits c f → ∀ d n, k.slot s.disk.tree u.af.target_path = some (d, n) →
      ∀ j v, j ≠ i → s.uploads[j]? = some v → v.Live →
        s.disk.tree.get (d ++ [n]) ≠ some (.file v.ino)

/-! ## What one upload does to the rest of the disk -/

namespace AtomicFile

theorem write_buf_loop_touches (sched : WriteSched) (chunks : List Bytes) (d : Disk) (f : Handle)
    (hasher : Bytes) :
    (write_buf_loop d f hasher sched chunks).2.1.ino = f.ino ∧
      (write_buf_loop d f hasher sched chunks).1.tree = d.tree ∧
      (write_buf_loop d f hasher sched chunks).1.next = d.next ∧
      ∀ i, i ≠ f.ino → (write_buf_loop d f hasher sched chunks).1.inode i = d.inode i := by
  -- one `write`
  have hone : ∀ (d : Disk) (f : Handle) (bs : Bytes), (d.write_at f bs).2.ino = f.ino ∧
      (d.write_at f bs).1.tree = d.tree ∧ (d.write_at f bs).1.next = d.next ∧
      ∀ i, i ≠ f.ino → (d.write_at f bs).1.inode i = d.inode i :=
    fun d f bs => ⟨rfl, rfl, rfl, fun i hi => by simp only [Disk.write_at, if_neg hi]⟩
  induction sched generalizing chunks d f hasher with
  | nil => exact hone d f chunks.flatten
  | cons r sched ih =>
      have hsame : f.ino = f.ino ∧ d.tree = d.tree ∧ d.next = d.next ∧
          ∀ i, i ≠ f.ino → d.inode i = d.inode i := ⟨rfl, rfl, rfl, fun _ _ => rfl⟩
      unfold write_buf_loop
      split
      · exact hsame
      · rename_i chunk rest hchunks
        cases r with
        | error e => exact hsame
        | ok n =>
            dsimp only
            split
            · exact hsame
            · -- this call, and then the rest of the schedule
              obtain ⟨h1, h2, h3, h4⟩ := hone d f (chunk.take n)
              obtain ⟨g1, g2, g3, g4⟩ := ih (chunk.drop n :: rest) (d.write_at f (chunk.take n)).1
                (d.write_at f (chunk.take n)).2 (hasher ++ chunk.take n)
              exact ⟨g1.trans h1, g2.trans h2, g3.trans h3,
                fun i hi => (g4 i (by rw [h1]; exact hi)).trans (h4 i hi)⟩

/-- A write changes the contents of the open file, and nothing else on the disk. -/
theorem write_touches {af : AtomicFile} {f : Handle} (hf : af.file = some f) (d : Disk)
    (call : WriteCall) :
    ∃ f', (af.write d call).1.file = some f' ∧ f'.ino = f.ino ∧
      (af.write d call).1.committed = af.committed ∧ (af.write d call).2.1.tree = d.tree ∧
      (af.write d call).2.1.next = d.next ∧
      ∀ i, i ≠ f.ino → (af.write d call).2.1.inode i = d.inode i := by
  cases call with
  | bytes buf fault =>
      cases fault with
      | none =>
          simp only [write, write_bytes, hf]
          exact ⟨_, rfl, rfl, trivial, rfl, rfl, fun i hi => by simp only [Disk.write_at, if_neg hi]⟩
      | some e =>
          simp only [write, write_bytes, hf]
          exact ⟨_, rfl, rfl, trivial, rfl, rfl, fun i hi => by simp only [Disk.write_at, if_neg hi]⟩
  | buf chunks sched =>
      obtain ⟨h1, h2, h3, h4⟩ := write_buf_loop_touches sched chunks d f af.hasher
      simp only [write, write_buf, hf]
      exact ⟨_, rfl, h1, trivial, h2, h3, h4⟩

end AtomicFile

namespace Upload

theorem Books.frame {c : Crates} {d d' : Disk} {u : Upload} (h : Books c d u)
    (hi : d'.inode u.ino = d.inode u.ino) : Books c d' u := by
  refine ⟨fun hw => ?_, fun hs => ?_, fun hc => ?_⟩
  · obtain ⟨hc, f, hf, hfi, hend⟩ := h.taking hw
    refine ⟨hc, f, hf, hfi, ?_⟩
    simp only [AtomicFile.AtEnd, hfi, hi] at hend ⊢
    exact hend
  · rw [hi]
    exact h.counted hs
  · rw [hi]
    exact h.sealed hc

theorem Held.frame {k : Kernel} {o : Spot} {d d' : Disk} {u u' : Upload} (h : Held k o d u)
    (hino : u'.ino = u.ino) (hborn : u'.born = u.born)
    (htemp : u'.af.temp_path = u.af.temp_path) (htarget : u'.af.target_path = u.af.target_path)
    (hnext : d.next ≤ d'.next) (hfades : Fades u.born d'.tree)
    (honly : ∀ l, d'.tree.get l = some (.file u.ino) ↔ d.tree.get l = some (.file u.ino)) :
    Held k o d' u' where
  temp := htemp.trans h.temp
  target m hm := by
    rw [htarget] at hm ⊢
    exact h.target m hm
  stat := by rw [hborn, h.stat]
  dir := by rw [hborn, h.dir]
  not_dir := by rw [hborn, htarget, h.not_dir]
  made := by rw [hborn, hino, h.made]
  fades := by
    rw [hborn]
    exact hfades
  only l := by rw [hino, honly, h.only]
  old := by
    rw [hino]
    exact Nat.lt_of_lt_of_le h.old hnext

theorem write_committed (af : AtomicFile) (d : Disk) (call : AtomicFile.WriteCall) :
    (af.write d call).1.committed = af.committed := by
  cases call with
  | bytes buf fault =>
    simp only [AtomicFile.write, AtomicFile.write_bytes]
    split
    · rfl
    · cases fault <;> rfl
  | buf chunks sched =>
    simp only [AtomicFile.write, AtomicFile.write_buf]
    split <;> rfl

/-- What has committed stays so. -/
theorem committed_stays {k : Kernel} {c : Crates} {d d' : Disk} {u u' : Upload} {a : Act}
    (hs : u.step k c d a = some (d', u')) (h : u.af.committed = true) :
    u'.af.committed = true := by
  cases step_cases hs with
  | wrote call hw => exact (write_committed u.af d call).trans h
  | committed _ fault st ha hst hst' =>
    have hcase : u.af.commit k c d fault = (u.af, d, .ok ()) := by
      unfold AtomicFile.commit
      rw [if_pos h]
    rw [hcase]
    exact h
  | dropped hst => exact h

/-- While it takes writes, an upload has its own file open. -/
def Grips (u : Upload) : Prop :=
  u.stage = .writing → u.af.committed = false ∧ ∃ f, u.af.file = some f ∧ f.ino = u.ino

theorem Books.grips {c : Crates} {d : Disk} {u : Upload} (h : Books c d u) : u.Grips := by
  intro hw
  obtain ⟨hc, f, hf, hfi, -⟩ := h.taking hw
  exact ⟨hc, f, hf, hfi⟩

/-- A step leaves the grip, or ends the writing. -/
theorem Grips.step {k : Kernel} {c : Crates} {d d' : Disk} {u u' : Upload} {a : Act}
    (h : u.Grips) (hs : u.step k c d a = some (d', u')) : u'.Grips := by
  cases step_cases hs with
  | wrote call hw =>
      obtain ⟨hc, f, hf, hfi⟩ := h hw
      obtain ⟨f', hf', hino, hcom, -⟩ := AtomicFile.write_touches hf d call
      exact fun _ => ⟨hcom.trans hc, f', hf', hino.trans hfi⟩
  | committed _ fault st ha hst hst' =>
      intro hw
      rcases hst' with rfl | rfl | rfl <;> cases hw
  | dropped hst =>
      intro hw
      cases hw

/-- What a step of `u` does to the tree: nothing, its rename, or the removal of
its temp file. -/
inductive Effect (k : Kernel) (d : Disk) (u : Upload) (d' : Disk) (u' : Upload) : Prop where
  | quiet (htree : d'.tree = d.tree) (hlive : u'.Live → u.Live)
      (hcom : u'.af.committed = true → u.af.committed = true)
  | renamed (o : Spot) (m : String) (hlive : u.Live) (hheld : Held k o d u)
      (hcom : u'.af.committed = true)
      (hslot : k.slot d.tree u.af.target_path = some (o.base, m))
      (hnd : d.tree.get (o.base ++ [m]) ≠ some .dir)
      (hget : ∀ x, d'.tree.get x = if x = o.base ++ [m] then some (.file u.ino)
        else if x = o.loc then none else d.tree.get x)
      (hlands : k.stat d'.tree u.af.target_path = some (o.base ++ [m]))
  | removed (o : Spot) (hlive : u.Live) (hheld : Held k o d u) (hgone : ¬ u'.Live)
      (hcom : u'.af.committed = true → u.af.committed = true)
      (hget : ∀ x, d'.tree.get x = if x = o.loc then none else d.tree.get x)

/-- Every step has one of these effects, writes only the upload's own inode, and
renames only when `Commits` says so. -/
theorem step_effect {k : Kernel} {c : Crates} {d d' : Disk} {u u' : Upload} {a : Act}
    (hg : u.Grips) (hh : u.Live → ∃ o, Held k o d u)
    (hs : u.step k c d a = some (d', u')) :
    Effect k d u d' u' ∧ (∀ i, i ≠ u.ino → d'.inode i = d.inode i) ∧ d'.next = d.next ∧
      (u.af.committed = false → u'.af.committed = true →
        ∃ f, (a = .flush f ∨ a = .metadata f) ∧ u.Commits c f) := by
  cases step_cases hs with
  -- a write leaves the tree as it is
  | wrote call hw =>
      obtain ⟨hnc, f, hf, hfi⟩ := hg hw
      obtain ⟨f', -, -, hcom, htree, hnext, hothers⟩ := AtomicFile.write_touches hf d call
      have hnc' : (u.af.write d call).1.committed = false := hcom.trans hnc
      refine ⟨.quiet htree (fun _ => ⟨hnc, by rw [hw]; decide⟩)
        (fun hc => absurd hc (by simp [hnc'])), fun i hi => hothers i (by rw [hfi]; exact hi),
        hnext, fun _ hc => absurd hc (by simp [hnc'])⟩
  | committed _ fault st ha hst hst' =>
      have hdw : u.stage ≠ .dropped := by rcases hst with hst | hst <;> rw [hst] <;> decide
      -- all ways but one of ending a commit leave the tree as it is
      have hcase := AtomicFile.commit_cases k c u.af d fault
      revert hcase
      generalize u.af.commit k c d fault = r
      intro hcase
      cases hcase with
      | again hcom =>
          exact ⟨.quiet rfl (fun hl => absurd hl.1 (by simp [hcom])) fun _ => hcom, fun _ _ => rfl,
            rfl, fun hnc => absurd hcom (by simp [hnc])⟩
      | mismatch hcom hm =>
          exact ⟨.quiet rfl (fun _ => ⟨hcom, hdw⟩) fun hc => hc, fun _ _ => rfl, rfl,
            fun _ hc => absurd hc (by simp [hcom])⟩
      | unsynced hcom hm e hse =>
          exact ⟨.quiet rfl (fun _ => ⟨hcom, hdw⟩) fun hc => hc, fun _ _ => rfl, rfl,
            fun _ hc => absurd hc (by simp [AtomicFile.closed, hcom])⟩
      | incomplete hcom hm hse hw =>
          exact ⟨.quiet rfl (fun _ => ⟨hcom, hdw⟩) fun hc => hc, fun _ _ => rfl, rfl,
            fun _ hc => absurd hc (by simp [AtomicFile.closed, hcom])⟩
      | unrenamed hcom hm hse hw e hr =>
          exact ⟨.quiet rfl (fun _ => ⟨hcom, hdw⟩) fun hc => hc, fun _ _ => rfl, rfl,
            fun _ hc => absurd hc (by simp [AtomicFile.closed, hcom])⟩
      | renamed hcom hm hse hw d₂ hr =>
          obtain ⟨o, hheld⟩ := hh ⟨hcom, hdw⟩
          obtain ⟨m, -, -, hslot, hnd, hget, -, -, hland⟩ := hheld.rename hr
          obtain ⟨hfault, -, hino, hnext⟩ := Disk.rename_ok hr
          -- the attribute is set on what the target now leads to, which is the upload's own
          -- inode
          obtain ⟨htree, hnext', -, -⟩ := AtomicFile.set_xattr_sha256_spec k d₂ u.af.target_path
            (c.hex_encode (c.sha256 u.af.hasher))
          have hread : k.read d₂.tree u.af.target_path = some u.ino :=
            Kernel.read_eq_some.mpr ⟨_, hland, by rw [hget, if_pos rfl]⟩
          refine ⟨.renamed o m ⟨hcom, hdw⟩ hheld rfl hslot hnd (fun x => ?_) ?_,
            fun i hi => ?_, hnext'.trans hnext, fun _ _ => ⟨fault, ha, hcom, hm, hse, hw, hfault⟩⟩
          · rw [htree]
            exact hget x
          · rw [htree]
            exact hland
          · rw [AtomicFile.set_xattr_sha256_others _ hread hi, hino]
  | dropped hst =>
      cases hcom : u.af.committed with
      | true =>
          have hsame : u.af.drop k d = d := by simp [AtomicFile.drop, hcom]
          rw [hsame]
          exact ⟨.quiet rfl (fun hl => absurd rfl hl.2) fun hc => hc, fun _ _ => rfl, rfl,
            fun hnc => by cases hnc⟩
      | false =>
          obtain ⟨o, hheld⟩ := hh ⟨hcom, hst⟩
          obtain ⟨hino, hnext, htree⟩ := hheld.drop
          refine ⟨?_, fun i _ => congrFun hino i, hnext, fun _ hc => absurd hc (by simp)⟩
          rcases htree with htree | hget
          · exact .quiet htree (fun hl => absurd rfl hl.2) fun hc => hc
          · exact .removed o ⟨hcom, hst⟩ hheld (fun hl => hl.2 rfl) (fun hc => hc) hget

/-- What a live upload `v` can rely on while `u` takes a step that does not put
a file in the place of `v`'s temp file. -/
theorem Effect.spares {k : Kernel} {d d' : Disk} {u u' v : Upload} {o : Spot}
    (h : Effect k d u d' u') (hv : Held k o d v) (hne : v.ino ≠ u.ino)
    (hplain : u.Live → ∀ l, d.tree.get l = some (.file u.ino) →
      v.born.get l ≠ some .dir ∧ ∀ tgt, v.born.get l ≠ some (.symlink tgt))
    (hapart : u.Live → u'.af.committed = true → ∀ D n,
      k.slot d.tree u.af.target_path = some (D, n) →
        d.tree.get (D ++ [n]) ≠ some (.file v.ino)) :
    (∀ l, d'.tree.get l = some (.file v.ino) ↔ d.tree.get l = some (.file v.ino)) ∧
      Fades v.born d'.tree := by
  cases h with
  | quiet htree hlive hcom =>
      rw [htree]
      exact ⟨fun _ => Iff.rfl, hv.fades⟩
  | renamed o' m hlive hheld hcom hslot hnd hget hlands =>
      -- the temp file of `u` goes from one place to another, and neither holds `v`'s
      have hown : d.tree.get o'.loc = some (.file u.ino) := (hheld.only _).mpr rfl
      have hfile : ∀ {x y : Nat}, x ≠ y → (some (.file x) : Option (Entry Nat)) ≠ some (.file y) :=
        fun hxy he => hxy (by simpa using he)
      refine ⟨fun l => ?_, fun l hl => ?_, fun l tgt hl => ?_⟩
      · rw [hget]
        split
        · rename_i hlm
          rw [hlm]
          exact ⟨fun he => absurd he (hfile hne.symm),
            fun he => absurd he (hapart hlive hcom _ _ hslot)⟩
        · split
          · rename_i hlo
            rw [hlo, hown]
            exact ⟨fun he => (by cases he), fun he => absurd he (hfile hne.symm)⟩
          · exact Iff.rfl
      · -- a directory `v` saw is neither at the target nor the temp file
        have hd := hv.fades.1 l hl
        have hlm : l ≠ o'.base ++ [m] := fun he => hnd (by rw [← he]; exact hd)
        have hlo : l ≠ o'.loc := fun he => (hplain hlive _ hown).1 (by rw [← he]; exact hl)
        rw [hget, if_neg hlm, if_neg hlo]
        exact hd
      -- where `v` saw a link there may now be the file that was put in its place
      · have hlo : l ≠ o'.loc := fun he => (hplain hlive _ hown).2 tgt (by rw [← he]; exact hl)
        rw [hget, if_neg hlo]
        split
        · exact .inr ⟨_, rfl⟩
        · exact hv.fades.2 l tgt hl
  | removed o' hlive hheld hgone hcom hget =>
      have hown : d.tree.get o'.loc = some (.file u.ino) := (hheld.only _).mpr rfl
      refine ⟨fun l => ?_, fun l hl => ?_, fun l tgt hl => ?_⟩
      · rw [hget]
        split
        · rename_i hlo
          rw [hlo, hown]
          exact ⟨fun he => (by cases he), fun he => absurd (by simpa using he) hne.symm⟩
        · exact Iff.rfl
      · have hlo : l ≠ o'.loc := fun he => (hplain hlive _ hown).1 (by rw [← he]; exact hl)
        rw [hget, if_neg hlo]
        exact hv.fades.1 l hl
      · have hlo : l ≠ o'.loc := fun he => (hplain hlive _ hown).2 tgt (by rw [← he]; exact hl)
        rw [hget, if_neg hlo]
        exact hv.fades.2 l tgt hl

end Upload

/-! ## The invariant of the server -/

/-- Every upload that takes writes has its file open, every live one holds its temp file,
inodes are not shared, and no temp file sits where another upload's directories or
links were. -/
structure Placed (k : Kernel) (s : Server) : Prop where
  grips : ∀ (i : Nat) u, s.uploads[i]? = some u → u.Grips
  held : ∀ (i : Nat) u, s.uploads[i]? = some u → u.Live → ∃ o, Upload.Held k o s.disk u
  old : ∀ (i : Nat) u, s.uploads[i]? = some u → u.ino < s.disk.next
  distinct : ∀ (i j : Nat) u v, i ≠ j → s.uploads[i]? = some u → s.uploads[j]? = some v →
    u.ino ≠ v.ino
  plain : ∀ (i j : Nat) u v, s.uploads[i]? = some u → s.uploads[j]? = some v → u.Live → v.Live →
    ∀ l, s.disk.tree.get l = some (.file v.ino) →
      u.born.get l ≠ some .dir ∧ ∀ tgt, u.born.get l ≠ some (.symlink tgt)

/-- Moreover, every upload's books are right. -/
structure Booked (k : Kernel) (c : Crates) (s : Server) : Prop extends Placed k s where
  books : ∀ (i : Nat) u, s.uploads[i]? = some u → Upload.Books c s.disk u

/-- What one step leaves untouched of the live uploads it is not about. -/
def Untouched (d d' : Disk) (v : Upload) : Prop :=
  (∀ l, d'.tree.get l = some (.file v.ino) ↔ d.tree.get l = some (.file v.ino)) ∧
    d'.inode v.ino = d.inode v.ino

/-- What an `open` of whatever kind does to the files that are there: nothing. -/
structure Leaves (d d' : Disk) : Prop where
  extends_ : Extends d.tree d'.tree
  next : d.next ≤ d'.next
  files : ∀ i, i < d.next → ∀ l, d'.tree.get l = some (.file i) ↔ d.tree.get l = some (.file i)
  inode : ∀ i, i < d.next → d'.inode i = d.inode i

theorem Leaves.trans {d₁ d₂ d₃ : Disk} (h : Leaves d₁ d₂) (h' : Leaves d₂ d₃) : Leaves d₁ d₃ where
  extends_ l e he := h'.extends_ l e (h.extends_ l e he)
  next := h.next.trans h'.next
  files i hi l := (h'.files i (Nat.lt_of_lt_of_le hi h.next) l).trans (h.files i hi l)
  inode i hi := (h'.inode i (Nat.lt_of_lt_of_le hi h.next)).trans (h.inode i hi)

/-- Making directories. -/
theorem leaves_of_grows {d d' : Disk}
    (h : Grows d.tree d'.tree ∧ d'.inode = d.inode ∧ d'.next = d.next) : Leaves d d' where
  extends_ := h.1.extends
  next := Nat.le_of_eq h.2.2.symm
  files _ _ _ := h.1.file_iff
  inode i _ := congrFun h.2.1 i

/-- One file more, where nothing was, under the next inode number. -/
structure Gains (d d' : Disk) (x : Loc) : Prop where
  free : d.tree.get x = none
  get : ∀ l, d'.tree.get l = if l = x then some (.file d.next) else d.tree.get l
  inode : d'.inode = fun i => if i = d.next then ⟨[], none⟩ else d.inode i
  next : d'.next = d.next + 1

theorem Gains.leaves {d d' : Disk} {x : Loc} (h : Gains d d' x) : Leaves d d' where
  extends_ l e he := by
    rw [h.get, if_neg (fun hl => by rw [hl, h.free] at he; cases he), he]
  next := by
    rw [h.next]
    exact Nat.le_succ _
  files i hi l := by
    rw [h.get]
    split
    · rename_i hl
      rw [hl, h.free]
      simp only [Option.some.injEq, Entry.file.injEq, reduceCtorEq, iff_false]
      omega
    · exact Iff.rfl
  inode i hi := by
    have hne : i ≠ d.next := by omega
    rw [h.inode]
    exact if_neg hne

namespace Server

theorem placed_start (k : Kernel) (d : Disk) : Placed k ⟨d, []⟩ :=
  ⟨fun _ _ h => (by simp at h), fun _ _ h => (by simp at h), fun _ _ h => (by simp at h),
    fun _ _ _ _ _ h => (by simp at h), fun _ _ _ _ h => (by simp at h)⟩

theorem booked_start (k : Kernel) (c : Crates) (d : Disk) : Booked k c ⟨d, []⟩ :=
  ⟨placed_start k d, fun _ _ h => (by simp at h)⟩

/-- An `open` that failed has at most made directories. -/
theorem open_error {k : Kernel} {fs : AutoMkcolFs} {d d' : Disk} {path : List String}
    {options : OpenOptions} {fault : OpenFault} {e : FsError}
    (h : fs.open_ k d path options fault = (d', .error e)) :
    Grows d.tree d'.tree ∧ d'.inode = d.inode ∧ d'.next = d.next := by
  unfold AutoMkcolFs.open_ at h
  dsimp only at h
  split at h
  · rename_i hens
    cases h
    split at hens
    · have := AutoMkcolFs.ensure_parent_grows k fs d path fault.parent
      rw [hens] at this
      exact this
    · cases hens
  · rename_i dm hens
    -- the parent has been ensured, or nothing asked for it
    have hgrows : Grows d.tree dm.tree ∧ dm.inode = d.inode ∧ dm.next = d.next := by
      split at hens
      · have := AutoMkcolFs.ensure_parent_grows k fs d path fault.parent
        rw [hens] at this
        exact this
      · cases hens
        exact ⟨Grows.refl _, rfl, rfl⟩
    split at h
    · unfold AutoMkcolFs.open_atomic at h
      dsimp only at h
      split at h
      · cases h
        exact hgrows
      · split at h
        · cases h
          exact hgrows
        · split at h
          · cases h
            exact hgrows
          · split at h
            · cases h
              exact hgrows
            · cases h
    · cases h

/-- Whatever leaves the files alone keeps everything in its place. -/
theorem placed_left {k : Kernel} {s : Server} {d : Disk} (h : Placed k s) (hd : Leaves s.disk d) :
    Placed k ⟨d, s.uploads⟩ where
  grips := h.grips
  held i u hu hl := by
    obtain ⟨o, ho⟩ := h.held i u hu hl
    exact ⟨o, ho.frame rfl rfl rfl rfl hd.next (ho.fades.extends hd.extends_)
      (hd.files _ (h.old i u hu))⟩
  old i u hu := Nat.lt_of_lt_of_le (h.old i u hu) hd.next
  distinct := h.distinct
  plain i j u v hu hv hul hvl l hl :=
    h.plain i j u v hu hv hul hvl l ((hd.files _ (h.old j v hv) l).mp hl)

/-- So does what leaves the tree alone. -/
theorem placed_same {k : Kernel} {s : Server} {d : Disk} (h : Placed k s)
    (htree : d.tree = s.disk.tree) (hnext : d.next = s.disk.next) : Placed k ⟨d, s.uploads⟩ where
  grips := h.grips
  held i u hu hl := by
    obtain ⟨o, ho⟩ := h.held i u hu hl
    exact ⟨o, ho.frame rfl rfl rfl rfl (Nat.le_of_eq hnext.symm) (by rw [htree]; exact ho.fades)
      fun l => by rw [htree]⟩
  old i u hu := Nat.lt_of_lt_of_le (h.old i u hu) (Nat.le_of_eq hnext.symm)
  distinct := h.distinct
  plain i j u v hu hv hul hvl l hl := h.plain i j u v hu hv hul hvl l (htree ▸ hl)

/-- Making directories keeps everything in its place and the books right. -/
theorem booked_grow {k : Kernel} {c : Crates} {s : Server} {d : Disk} (h : Booked k c s)
    (hg : Grows s.disk.tree d.tree) (hi : d.inode = s.disk.inode) (hn : d.next = s.disk.next) :
    Booked k c ⟨d, s.uploads⟩ where
  toPlaced := placed_left h.toPlaced (leaves_of_grows ⟨hg, hi, hn⟩)
  books i u hu := (h.books i u hu).frame (congrFun hi _)

/-- Of the longer list an index is one of the old uploads or the new one. -/
theorem upload_cases {us : List Upload} {w u : Upload} {i : Nat} (h : (us ++ [w])[i]? = some u) :
    us[i]? = some u ∨ (i = us.length ∧ u = w) := by
  rcases Nat.lt_or_ge i us.length with hi | hi
  · rw [List.getElem?_append_left hi] at h
    exact .inl h
  · rw [List.getElem?_append_right hi, List.getElem?_singleton] at h
    split at h
    · cases h
      exact .inr ⟨by omega, rfl⟩
    · cases h

/-- The new temp file is a file more. -/
theorem leaves_of_opening {k : Kernel} {dm d : Disk} {o : Spot} {af : AtomicFile}
    (h : Opening k dm d o af) : Leaves dm d :=
  Gains.leaves ⟨h.free, h.get, h.inode, h.next⟩

/-- Adding the new temp file to the tree keeps everything in its place. -/
theorem placed_add {k : Kernel} {dm d : Disk} {us : List Upload} {o : Spot}
    {af : AtomicFile} (h : Placed k ⟨dm, us⟩) (hop : Opening k dm d o af) :
    Placed k ⟨d, us ++ [Upload.start d af]⟩ := by
  have hleft := leaves_of_opening hop
  have hpl : Placed k ⟨d, us⟩ := placed_left h hleft
  have hino : (Upload.start d af).ino = dm.next := by simp [Upload.start, hop.file]
  refine ⟨fun i u hu => ?_, fun i u hu hl => ?_, fun i u hu => ?_, fun i j u v hij hu hv => ?_,
    fun i j u v hu hv hul hvl l hl => ?_⟩
  · rcases upload_cases hu with hu | ⟨-, rfl⟩
    · exact h.grips i u hu
    · exact fun _ => ⟨hop.committed, _, hop.file, hino.symm⟩
  · rcases upload_cases hu with hu | ⟨-, rfl⟩
    · exact hpl.held i u hu hl
    · exact ⟨o, Upload.held_start hop⟩
  · rcases upload_cases hu with hu | ⟨-, rfl⟩
    · exact hpl.old i u hu
    · rw [hino]
      show dm.next < d.next
      rw [hop.next]
      exact Nat.lt_succ_self _
  · rcases upload_cases hu with hu | ⟨hi, rfl⟩ <;> rcases upload_cases hv with hv | ⟨hj, rfl⟩
    · exact h.distinct i j u v hij hu hv
    · rw [hino]
      exact Nat.ne_of_lt (h.old i u hu)
    · rw [hino]
      exact (Nat.ne_of_lt (h.old j v hv)).symm
    · exact absurd (hi.trans hj.symm) hij
  · rcases upload_cases hu with hu | ⟨-, rfl⟩
    · rcases upload_cases hv with hv | ⟨-, rfl⟩
      · exact hpl.plain i j u v hu hv hul hvl l hl
      · -- the new file is where nothing was, so neither was there before
        obtain ⟨o', ho'⟩ := h.held i u hu hul
        have hlo : l = o.loc := (Upload.held_start hop).only l |>.mp hl
        have hnone : dm.tree.get l = none := by rw [hlo, hop.free]
        refine ⟨fun hd => ?_, fun tgt ht => ?_⟩
        · rw [ho'.fades.1 l hd] at hnone
          cases hnone
        · rcases ho'.fades.2 l tgt ht with h1 | ⟨a, h1⟩
          · rw [h1] at hnone
            cases hnone
          · rw [h1] at hnone
            cases hnone
    · have : (Upload.start d af).born = d.tree := rfl
      rw [this, hl]
      exact ⟨by simp, fun tgt => by simp⟩

/-- Adding the new temp file to the tree keeps everything in its place and the books right. -/
theorem booked_add {k : Kernel} {c : Crates} {dm d : Disk} {us : List Upload} {o : Spot}
    {af : AtomicFile} (h : Booked k c ⟨dm, us⟩) (hop : Opening k dm d o af) :
    Booked k c ⟨d, us ++ [Upload.start d af]⟩ where
  toPlaced := placed_add h.toPlaced hop
  books i u hu := by
    rcases upload_cases hu with hu | ⟨-, rfl⟩
    · exact (h.books i u hu).frame ((leaves_of_opening hop).inode _ (h.old i u hu))
    · exact Upload.books_start hop

/-- A step of one upload keeps everything in its place and the others untouched. -/
theorem placed_act {k : Kernel} {c : Crates} {s : Server} {i : Nat} {a : Act} {u u' : Upload}
    {d' : Disk} (h : Placed k s) (ha : Apart k c s (.act i a)) (hu : s.uploads[i]? = some u)
    (hs : u.step k c s.disk a = some (d', u')) :
    Placed k ⟨d', s.uploads.set i u'⟩ ∧ ∀ j v, j ≠ i → s.uploads[j]? = some v → v.Live →
      Untouched s.disk d' v := by
  obtain ⟨heff, hinode, hnext, hcommits⟩ := Upload.step_effect (h.grips i u hu) (h.held i u hu) hs
  obtain ⟨hki, hkb, hkt, hkg, -, -⟩ := Upload.step_keeps hs
  have hlive : u'.Live → u.Live := by
    intro hl
    cases heff with
    | quiet htree hlive hcom => exact hlive hl
    | renamed o m hlive hheld hcom hslot hnd hget hlands => exact hlive
    | removed o hlive hheld hgone hcom hget => exact hlive
  have hcase : ∀ {j : Nat} {v : Upload}, (s.uploads.set i u')[j]? = some v →
      (j ≠ i ∧ s.uploads[j]? = some v) ∨ (j = i ∧ v = u') := by
    intro j v hv
    rw [List.getElem?_set] at hv
    split at hv
    · rename_i hij
      split at hv
      · cases hv
        exact .inr ⟨hij.symm, rfl⟩
      · cases hv
    · rename_i hij
      exact .inl ⟨fun he => hij he.symm, hv⟩
  -- what the step leaves of another live upload
  have hspare : ∀ {j : Nat} {v : Upload}, j ≠ i → s.uploads[j]? = some v → v.Live →
      (∀ l, d'.tree.get l = some (.file v.ino) ↔ s.disk.tree.get l = some (.file v.ino)) ∧
        Fades v.born d'.tree := by
    intro j v hj hv hvl
    obtain ⟨o, ho⟩ := h.held j v hv hvl
    refine heff.spares ho (h.distinct j i v u hj hv hu) (fun hul l hl => ?_) fun hul hcom D n hsl =>
      ?_
    · exact h.plain j i v u hv hu hvl hul l hl
    · obtain ⟨f, haf, hcf⟩ := hcommits hul.1 hcom
      refine ha i u f ?_ hu hcf D n hsl j v hj hv hvl
      rcases haf with rfl | rfl
      · exact .inl rfl
      · exact .inr rfl
  refine ⟨⟨fun j v hv => ?_, fun j v hv hvl => ?_, fun j v hv => ?_, fun j l v w hjl hv hw => ?_,
    fun j l v w hv hw hvl hwl x hx => ?_⟩, fun j v hj hv hvl => ?_⟩
  · rcases hcase hv with ⟨hj, hv⟩ | ⟨-, rfl⟩
    · exact h.grips j v hv
    · exact (h.grips i u hu).step hs
  · rcases hcase hv with ⟨hj, hv⟩ | ⟨-, rfl⟩
    · obtain ⟨o, ho⟩ := h.held j v hv hvl
      obtain ⟨honly, hfades⟩ := hspare hj hv hvl
      exact ⟨o, ho.frame rfl rfl rfl rfl (Nat.le_of_eq hnext.symm) hfades honly⟩
    · obtain ⟨o, ho⟩ := h.held i u hu (hlive hvl)
      cases heff with
      | quiet htree _ hcom =>
          exact ⟨o, ho.frame hki hkb hkt hkg (Nat.le_of_eq hnext.symm) (by rw [htree]; exact ho.fades)
            (fun l => by rw [htree])⟩
      | renamed o m _ hheld hcom hslot hnd hget hlands =>
          have hnc := hvl.1
          rw [hcom] at hnc
          cases hnc
      | removed o _ hheld hgone hcom hget => exact absurd hvl hgone
  · rw [show (⟨d', s.uploads.set i u'⟩ : Server).disk.next = s.disk.next from hnext]
    rcases hcase hv with ⟨-, hv⟩ | ⟨-, rfl⟩
    · exact h.old j v hv
    · rw [hki]
      exact h.old i u hu
  · rcases hcase hv with ⟨hj, hv'⟩ | ⟨hj, hv'⟩ <;> rcases hcase hw with ⟨hl, hw'⟩ | ⟨hl, hw'⟩
    · exact h.distinct j l v w hjl hv' hw'
    · rw [hw', hki]
      exact h.distinct j i v u hj hv' hu
    · rw [hv', hki]
      exact (h.distinct l i w u hl hw' hu).symm
    · exact absurd (hj.trans hl.symm) hjl
  · -- a temp file that is there now was there before
    have hx₀ : ∃ w₀ : Upload, (∃ l₀ : Nat, s.uploads[l₀]? = some w₀) ∧ w₀.Live ∧
        s.disk.tree.get x = some (.file w₀.ino) := by
      rcases hcase hw with ⟨hl, hw⟩ | ⟨-, rfl⟩
      · exact ⟨w, ⟨l, hw⟩, hwl, ((hspare hl hw hwl).1 x).mp hx⟩
      · refine ⟨u, ⟨i, hu⟩, hlive hwl, ?_⟩
        cases heff with
        | quiet htree _ hcom =>
            rw [← htree, ← hki]
            exact hx
        | renamed o m _ hheld hcom hslot hnd hget hlands =>
            have hnc := hwl.1
            rw [hcom] at hnc
            cases hnc
        | removed o _ hheld hgone hcom hget => exact absurd hwl hgone
    obtain ⟨w₀, ⟨l₀, hw₀⟩, hw₀l, hx₀⟩ := hx₀
    rcases hcase hv with ⟨-, hv⟩ | ⟨-, rfl⟩
    · exact h.plain j l₀ v w₀ hv hw₀ hvl hw₀l x hx₀
    · rw [hkb]
      exact h.plain i l₀ u w₀ hu hw₀ (hlive hvl) hw₀l x hx₀
  · exact ⟨(hspare hj hv hvl).1, hinode _ (h.distinct j i v u hj hv hu)⟩

/-- A step of one upload keeps everything in its place and the books right. -/
theorem booked_act {k : Kernel} {c : Crates} {s : Server} {i : Nat} {a : Act} {u u' : Upload}
    {d' : Disk} (h : Booked k c s) (ha : Apart k c s (.act i a)) (hu : s.uploads[i]? = some u)
    (hs : u.step k c s.disk a = some (d', u')) : Booked k c ⟨d', s.uploads.set i u'⟩ where
  toPlaced := (placed_act h.toPlaced ha hu hs).1
  books j v hv := by
    obtain ⟨-, hinode, -, -⟩ := Upload.step_effect (h.grips i u hu) (h.held i u hu) hs
    rw [List.getElem?_set] at hv
    split at hv
    · split at hv
      · cases hv
        exact Upload.books_step (h.books i u hu) hs
      · cases hv
    · rename_i hij
      exact (h.books j v hv).frame (hinode _ (h.distinct j i v u (fun he => hij he.symm) hv hu))

end Server

end WebDavs.AutoFs
