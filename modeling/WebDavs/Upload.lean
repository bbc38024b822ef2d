/-
One upload: what each operation of `AtomicFile` does to the disk.

The lemmas here are the ones every statement about uploads is put together
from. A write goes to the handle's inode and nowhere else, and never to the
tree. `commit` has three ways out -- already done, refused or incomplete, renamed
-- and `commit_cases` is the only place where it is taken apart. `open` leaves
the disk as it found it but for missing parents and one empty temp file, which
is what `Opening` says.
-/
import WebDavs.AutoFs

set_option autoImplicit false

namespace WebDavs.AutoFs

open WebDavs.Posix WebDavs.Posix.FileTree

namespace Disk

/-! ## The disk operations -/

theorem create_new_ok {k : Kernel} {d d' : Disk} {p : Path} {f : Handle}
    (h : d.create_new k p = .ok (d', f)) :
    k.create_new d.tree p d.next = .ok d'.tree ∧ f = ⟨d.next, 0⟩ ∧ d'.next = d.next + 1 ∧
      d'.inode = fun i => if i = d.next then ⟨[], none⟩ else d.inode i := by
  unfold create_new at h
  split at h
  · cases h
  · rename_i t ht
    simp only [Except.ok.injEq, Prod.mk.injEq] at h
    obtain ⟨rfl, rfl⟩ := h
    exact ⟨ht, rfl, rfl, rfl⟩

theorem rename_ok {k : Kernel} {d d' : Disk} {p q : Path} {fault : Option Errno}
    (h : d.rename k p q fault = .ok d') :
    fault = none ∧ k.rename d.tree p q = .ok d'.tree ∧ d'.inode = d.inode ∧ d'.next = d.next := by
  unfold rename at h
  split at h
  · cases h
  · split at h
    · cases h
    · rename_i t ht
      simp only [Except.ok.injEq] at h
      subst h
      exact ⟨rfl, ht, rfl, rfl⟩

theorem remove_file_ok {k : Kernel} {d d' : Disk} {p : Path} (h : d.remove_file k p = .ok d') :
    k.remove_file d.tree p = .ok d'.tree ∧ d'.inode = d.inode ∧ d'.next = d.next := by
  unfold remove_file at h
  split at h
  · cases h
  · rename_i t ht
    simp only [Except.ok.injEq] at h
    subst h
    exact ⟨ht, rfl, rfl⟩

theorem remove_file_of_ok {k : Kernel} {d : Disk} {p : Path} {t : FileTree Nat}
    (h : k.remove_file d.tree p = .ok t) : ∃ d', d.remove_file k p = .ok d' := by
  unfold remove_file
  split
  · rename_i he
    rw [h] at he
    cases he
  · exact ⟨_, rfl⟩

theorem view_eq_file {k : Kernel} {d : Disk} {p : Path} {l : Loc} {i : Nat}
    (hs : k.stat d.tree p = some l) (hg : d.tree.get l = some (.file i)) :
    d.view k p = some (some (d.inode i).content) := by
  simp only [view, hs, hg]

end Disk

namespace AtomicFile

/-! ## Writing -/

/-- One call that carries a part of the body, with what the environment does to
it. -/
inductive WriteCall where
  | bytes (buf : Bytes) (fault : WriteFault)
  | buf (chunks : List Bytes) (sched : WriteSched)

/-- The part of the body a call carries. -/
def WriteCall.body : WriteCall → Bytes
  | .bytes bs _ => bs
  | .buf chunks _ => chunks.flatten

/-- `write_bytes` or `write_buf`. -/
def write (af : AtomicFile) (d : Disk) : WriteCall → AtomicFile × Disk × Except FsError Unit
  | .bytes buf fault => af.write_bytes d buf fault
  | .buf chunks sched => af.write_buf d chunks sched

/-- A handle stands at the end of its file. -/
def AtEnd (d : Disk) (f : Handle) : Prop := f.pos = (d.inode f.ino).content.length

/-- Writing `bs` through `f` and nothing else: the file of `f` has grown by
`bs`, its handle with it. -/
structure Appended (d d' : Disk) (f f' : Handle) (bs : Bytes) : Prop where
  tree : d'.tree = d.tree
  next : d'.next = d.next
  ino : f'.ino = f.ino
  content : (d'.inode f.ino).content = (d.inode f.ino).content ++ bs
  sha256 : (d'.inode f.ino).sha256 = (d.inode f.ino).sha256
  others : ∀ i, i ≠ f.ino → d'.inode i = d.inode i
  atEnd : AtEnd d' f'

theorem Appended.trans {d₁ d₂ d₃ : Disk} {f₁ f₂ f₃ : Handle} {bs cs : Bytes}
    (h : Appended d₁ d₂ f₁ f₂ bs) (h' : Appended d₂ d₃ f₂ f₃ cs) :
    Appended d₁ d₃ f₁ f₃ (bs ++ cs) where
  tree := h'.tree.trans h.tree
  next := h'.next.trans h.next
  ino := h'.ino.trans h.ino
  content := by rw [← h.ino, h'.content, h.ino, h.content, List.append_assoc]
  sha256 := by rw [← h.ino, h'.sha256, h.ino, h.sha256]
  others i hi := by rw [h'.others i (by rwa [h.ino]), h.others i hi]
  atEnd := h'.atEnd

theorem Appended.refl {d : Disk} {f : Handle} (h : AtEnd d f) : Appended d d f f [] where
  tree := rfl
  next := rfl
  ino := rfl
  content := by simp
  sha256 := rfl
  others _ _ := rfl
  atEnd := h

theorem write_at_appended {d : Disk} {f : Handle} (h : AtEnd d f) (bs : Bytes) :
    Appended d (d.write_at f bs).1 f (d.write_at f bs).2 bs where
  tree := rfl
  next := rfl
  ino := rfl
  content := by
    have hp : f.pos = (d.inode f.ino).content.length := h
    simp [Disk.write_at, hp]
  sha256 := by simp [Disk.write_at]
  others i hi := by simp [Disk.write_at, hi]
  atEnd := by
    have hp : f.pos = (d.inode f.ino).content.length := h
    simp [AtEnd, Disk.write_at, hp]

/-- The chunks that the loop passes over are empty. -/
theorem flatten_dropWhile_isEmpty (chunks : List Bytes) :
    (chunks.dropWhile List.isEmpty).flatten = chunks.flatten := by
  induction chunks with
  | nil => rfl
  | cons c cs ih =>
      cases c with
      | nil => simpa using ih
      | cons b bs => simp

/-- The loop of `write_buf` appends what it hashes, which is some of the buffer and
the whole of it when it succeeds. -/
theorem write_buf_loop_spec {d : Disk} {f : Handle} (h : AtEnd d f) (hasher : Bytes)
    (sched : WriteSched) (chunks : List Bytes) :
    ∃ bs, Appended d (write_buf_loop d f hasher sched chunks).1 f
        (write_buf_loop d f hasher sched chunks).2.1 bs ∧
      (write_buf_loop d f hasher sched chunks).2.2.1 = hasher ++ bs ∧ bs <+: chunks.flatten ∧
      ((write_buf_loop d f hasher sched chunks).2.2.2 = .ok () → bs = chunks.flatten) := by
  induction sched generalizing d f hasher chunks with
  | nil => exact ⟨chunks.flatten, write_at_appended h _, rfl, List.prefix_rfl, fun _ => rfl⟩
  | cons r sched ih =>
      rw [← flatten_dropWhile_isEmpty chunks]
      unfold write_buf_loop
      split
      · rename_i hnil
        exact ⟨[], Appended.refl h, by simp, List.nil_prefix,
          fun _ => by rw [hnil, List.flatten_nil]⟩
      · rename_i chunk rest hcons
        split
        · exact ⟨[], Appended.refl h, by simp, List.nil_prefix, fun hr => by cases hr⟩
        · rename_i n
          split
          · exact ⟨[], Appended.refl h, by simp, List.nil_prefix, fun hr => by cases hr⟩
          · have hw := write_at_appended h (chunk.take n)
            obtain ⟨bs, hbs, hhash, hpre, hok⟩ :=
              ih hw.atEnd (hasher ++ chunk.take n) (chunk.drop n :: rest)
            refine ⟨chunk.take n ++ bs, hw.trans hbs, ?_, ?_, fun hr => ?_⟩
            · rw [← List.append_assoc]
              exact hhash
            · rw [List.flatten_cons] at hpre
              have hall : chunk ++ rest.flatten = chunk.take n ++ (chunk.drop n ++ rest.flatten) := by
                rw [← List.append_assoc, List.take_append_drop]
              rw [hcons, List.flatten_cons, hall]
              exact (List.prefix_append_right_inj _).mpr hpre
            · rw [hok hr, hcons, List.flatten_cons, List.flatten_cons, ← List.append_assoc,
                List.take_append_drop]

/-- What a write leaves alone in the file structure. -/
structure SameUpload (af af' : AtomicFile) : Prop where
  temp_path : af'.temp_path = af.temp_path
  target_path : af'.target_path = af.target_path
  expected_size : af'.expected_size = af.expected_size
  committed : af'.committed = af.committed
  fsync : af'.fsync = af.fsync
  expected_checksum : af'.expected_checksum = af.expected_checksum

/-- **A write with the file open** appends some part of what it carries to the
upload's inode, all of it when it succeeds, and then the hasher and the counter
have moved with it. -/
theorem write_spec {af : AtomicFile} {d : Disk} {f : Handle} (hf : af.file = some f)
    (h : AtEnd d f) (call : WriteCall) :
    ∃ f' bs, (af.write d call).1.file = some f' ∧ Appended d (af.write d call).2.1 f f' bs ∧
      SameUpload af (af.write d call).1 ∧
      ((af.write d call).2.2 = .ok () → bs = call.body ∧
        (af.write d call).1.hasher = af.hasher ++ call.body ∧
        (af.write d call).1.written = af.written + call.body.length) := by
  cases call with
  | bytes buf fault =>
      cases fault with
      | none =>
          simp only [write, write_bytes, hf]
          exact ⟨_, buf, rfl, write_at_appended h buf, ⟨rfl, rfl, rfl, rfl, rfl, rfl⟩,
            fun _ => ⟨rfl, rfl, rfl⟩⟩
      | some e =>
          simp only [write, write_bytes, hf]
          exact ⟨_, buf.take e.2, rfl, write_at_appended h _, ⟨rfl, rfl, rfl, rfl, rfl, rfl⟩,
            fun hr => by cases hr⟩
  | buf chunks sched =>
      obtain ⟨bs, hbs, hhash, -, hok⟩ := write_buf_loop_spec h af.hasher sched chunks
      simp only [write, write_buf, hf]
      refine ⟨_, bs, rfl, hbs, ⟨rfl, rfl, rfl, rfl, rfl, rfl⟩, fun hr => ?_⟩
      have hr' := hok hr
      refine ⟨hr', ?_, rfl⟩
      rw [hhash, hr']
      rfl

/-! ## Committing -/

/-- An upload after `commit` has taken its file. -/
def closed (af : AtomicFile) : AtomicFile := { af with file := none }

/-- The ways out of `commit`. -/
inductive CommitCase (k : Kernel) (c : Crates) (af : AtomicFile) (d : Disk) (fault : CommitFault) :
    AtomicFile × Disk × Except FsError Unit → Prop where
  /-- It was committed before. -/
  | again (h : af.committed = true) : CommitCase k c af d fault (af, d, .ok ())
  /-- The checksum the client sent does not match. -/
  | mismatch (h : af.committed = false) (hm : af.checksum_mismatch c = true) :
      CommitCase k c af d fault (af, d, .error .general_failure)
  /-- `sync_data` failed. -/
  | unsynced (h : af.committed = false) (hm : af.checksum_mismatch c = false) (e : Errno)
      (hs : (if af.fsync && af.file.isSome then fault.sync else none) = some e) :
      CommitCase k c af d fault (af.closed, d, .error (.io e))
  /-- The body is not complete: success, and nothing renamed. -/
  | incomplete (h : af.committed = false) (hm : af.checksum_mismatch c = false)
      (hs : (if af.fsync && af.file.isSome then fault.sync else none) = none)
      (hw : af.should_commit = false) : CommitCase k c af d fault (af.closed, d, .ok ())
  /-- The rename failed. -/
  | unrenamed (h : af.committed = false) (hm : af.checksum_mismatch c = false)
      (hs : (if af.fsync && af.file.isSome then fault.sync else none) = none)
      (hw : af.should_commit = true) (e : Errno)
      (hr : d.rename k af.temp_path af.target_path fault.rename = .error e) :
      CommitCase k c af d fault (af.closed, d, .error (.io e))
  /-- The upload is in place. -/
  | renamed (h : af.committed = false) (hm : af.checksum_mismatch c = false)
      (hs : (if af.fsync && af.file.isSome then fault.sync else none) = none)
      (hw : af.should_commit = true) (d' : Disk)
      (hr : d.rename k af.temp_path af.target_path fault.rename = .ok d') :
      CommitCase k c af d fault ({ af.closed with committed := true },
        set_xattr_sha256 k d' af.target_path (c.hex_encode (c.sha256 af.hasher)), .ok ())

/-- `commit` goes one of these ways. -/
theorem commit_cases (k : Kernel) (c : Crates) (af : AtomicFile) (d : Disk) (fault : CommitFault) :
    CommitCase k c af d fault (af.commit k c d fault) := by
  unfold commit
  split
  · rename_i h
    exact .again h
  · rename_i h
    rw [Bool.not_eq_true] at h
    split
    · rename_i hm
      exact .mismatch h hm
    · rename_i hm
      rw [Bool.not_eq_true] at hm
      dsimp only
      split
      · rename_i e hs
        exact .unsynced h hm e hs
      · rename_i hs
        split
        · rename_i hw
          split
          · rename_i e hr
            exact .unrenamed h hm hs hw e hr
          · rename_i d' hr
            exact .renamed h hm hs hw d' hr
        · rename_i hw
          exact .incomplete h hm hs (by simpa [should_commit] using hw)

/-- **Committed after a commit** is what was committed before, and what the commit has
renamed. -/
theorem commit_committed {k : Kernel} {c : Crates} {af : AtomicFile} {d : Disk} {fault : CommitFault}
    (hc : (af.commit k c d fault).1.committed = true) :
    af.committed = true ∧ af.commit k c d fault = (af, d, .ok ()) ∨
      ∃ d', af.committed = false ∧ af.checksum_mismatch c = false ∧ af.should_commit = true ∧
        d.rename k af.temp_path af.target_path fault.rename = .ok d' ∧
          af.commit k c d fault = ({ af.closed with committed := true },
            set_xattr_sha256 k d' af.target_path (c.hex_encode (c.sha256 af.hasher)), .ok ()) := by
  have hcase := commit_cases k c af d fault
  revert hc hcase
  generalize af.commit k c d fault = r
  intro hc hcase
  cases hcase with
  | again h => exact .inl ⟨h, rfl⟩
  | mismatch h hm => exact absurd hc (by simp [h])
  | unsynced h hm e hs => exact absurd hc (by simp [closed, h])
  | incomplete h hm hs hw => exact absurd hc (by simp [closed, h])
  | unrenamed h hm hs hw e hr => exact absurd hc (by simp [closed, h])
  | renamed h hm hs hw d' hr => exact .inr ⟨d', h, hm, hw, hr, rfl⟩

/-- `set_xattr_sha256` changes no tree and no contents. -/
theorem set_xattr_sha256_spec (k : Kernel) (d : Disk) (p : Path) (s : String) :
    (set_xattr_sha256 k d p s).tree = d.tree ∧ (set_xattr_sha256 k d p s).next = d.next ∧
      (∀ i, ((set_xattr_sha256 k d p s).inode i).content = (d.inode i).content) ∧
      ∀ i, k.read d.tree p = some i → ((set_xattr_sha256 k d p s).inode i).sha256 = some s := by
  unfold set_xattr_sha256
  split
  · rename_i h
    exact ⟨rfl, rfl, fun _ => rfl, fun i hi => by rw [h] at hi; cases hi⟩
  · rename_i j h
    refine ⟨rfl, rfl, fun i => ?_, fun i hi => ?_⟩
    · dsimp only
      split <;> rfl
    · rw [h] at hi
      cases hi
      simp

/-- What `commit` does to everything but the tree: the contents stay, and so
does what the upload was opened with. -/
theorem commit_keeps (k : Kernel) (c : Crates) (af : AtomicFile) (d : Disk) (fault : CommitFault) :
    (af.commit k c d fault).1.temp_path = af.temp_path ∧
      (af.commit k c d fault).1.target_path = af.target_path ∧
      (af.commit k c d fault).1.expected_size = af.expected_size ∧
      (af.commit k c d fault).1.expected_checksum = af.expected_checksum ∧
      (af.commit k c d fault).1.fsync = af.fsync ∧
      (af.commit k c d fault).1.hasher = af.hasher ∧
      (af.commit k c d fault).1.written = af.written ∧
      (af.commit k c d fault).2.1.next = d.next ∧
      ∀ i, ((af.commit k c d fault).2.1.inode i).content = (d.inode i).content := by
  have hcase := commit_cases k c af d fault
  revert hcase
  generalize af.commit k c d fault = r
  intro hcase
  cases hcase with
  | again h => exact ⟨rfl, rfl, rfl, rfl, rfl, rfl, rfl, rfl, fun _ => rfl⟩
  | mismatch h hm => exact ⟨rfl, rfl, rfl, rfl, rfl, rfl, rfl, rfl, fun _ => rfl⟩
  | unsynced h hm e hs => exact ⟨rfl, rfl, rfl, rfl, rfl, rfl, rfl, rfl, fun _ => rfl⟩
  | incomplete h hm hs hw => exact ⟨rfl, rfl, rfl, rfl, rfl, rfl, rfl, rfl, fun _ => rfl⟩
  | unrenamed h hm hs hw e hr => exact ⟨rfl, rfl, rfl, rfl, rfl, rfl, rfl, rfl, fun _ => rfl⟩
  | renamed h hm hs hw d' hr =>
      obtain ⟨-, -, hino, hnext⟩ := Disk.rename_ok hr
      obtain ⟨-, hnext', hcont, -⟩ :=
        set_xattr_sha256_spec k d' af.target_path (c.hex_encode (c.sha256 af.hasher))
      refine ⟨rfl, rfl, rfl, rfl, rfl, rfl, rfl, hnext'.trans hnext, fun i => ?_⟩
      rw [hcont i, hino]

/-- `metadata` does to the upload and to the disk what `commit` does. -/
theorem metadata_commit (k : Kernel) (c : Crates) (af : AtomicFile) (d : Disk)
    (fault : CommitFault) :
    (af.metadata k c d fault).1 = (af.commit k c d fault).1 ∧
      (af.metadata k c d fault).2.1 = (af.commit k c d fault).2.1 := by
  unfold metadata
  split
  · rename_i h
    rw [h]
    exact ⟨rfl, rfl⟩
  · rename_i h
    rw [h]
    dsimp only
    split <;> exact ⟨rfl, rfl⟩

theorem set_xattr_sha256_others {k : Kernel} {d : Disk} {p : Path} {i : Nat} (s : String)
    (h : k.read d.tree p = some i) {j : Nat} (hj : j ≠ i) :
    (set_xattr_sha256 k d p s).inode j = d.inode j := by
  simp only [set_xattr_sha256, h, if_neg hj]

end AtomicFile

/-! ## Opening -/

/-- Where an upload keeps its temp file: the directory as the code names it, the
name in it, and the place that directory is. -/
structure Spot where
  dir : Path
  temp_name : String
  base : Loc

/-- The place of the temp file. -/
def Spot.loc (o : Spot) : Loc := o.base ++ [o.temp_name]

theorem mem_temp_paths {dir target temp : Path} (h : temp ∈ temp_paths dir target) :
    ∃ tn, temp = dir.child tn ∧ ∀ m, target.file_name = some m → tn ≠ m := by
  have hlong : ∀ m s : String, s.length ≠ 0 → m ++ s ≠ m := by
    intro m s hs he
    have := congrArg String.length he
    rw [String.length_append] at this
    omega
  simp only [temp_paths, List.mem_map] at h
  obtain ⟨i, -, rfl⟩ := h
  split
  · refine ⟨_, rfl, fun m hm => ?_⟩
    rw [hm, Option.getD_some]
    exact hlong m _ (by decide)
  · refine ⟨_, rfl, fun m hm => ?_⟩
    rw [hm, Option.getD_some, String.append_assoc]
    refine hlong m _ ?_
    rw [String.length_append]
    have : ".uploading.nzk_webdavs.".length = 23 := by decide
    omega

theorem create_temp_from_ok {k : Kernel} {d d' : Disk} {fault : Path → Option Errno}
    {temps : List Path} {temp : Path} {f : Handle}
    (h : create_temp_from k d fault temps = .ok (d', temp, f)) :
    temp ∈ temps ∧ d.create_new k temp = .ok (d', f) := by
  induction temps with
  | nil => cases h
  | cons t ts ih =>
      unfold create_temp_from at h
      split at h
      · cases h
      · split at h
        · rename_i hc
          cases h
          exact ⟨List.mem_cons_self, hc⟩
        · obtain ⟨hm, hc⟩ := ih h
          exact ⟨List.mem_cons_of_mem _ hm, hc⟩
        · cases h

/-- What a successful `open` found (`before`, its parents in place) and left
(`after`). -/
structure Opening (k : Kernel) (before after : Disk) (o : Spot) (af : AtomicFile) : Prop where
  temp : af.temp_path = o.dir.child o.temp_name
  target : ∀ m, af.target_path.file_name = some m →
    af.target_path = o.dir.child m ∧ o.temp_name ≠ m
  stat : k.stat before.tree o.dir = some o.base
  dir : before.tree.get o.base = some .dir
  free : before.tree.get o.loc = none
  not_dir : k.is_dir before.tree af.target_path = false
  get : ∀ x, after.tree.get x = if x = o.loc then some (.file before.next) else before.tree.get x
  inode : after.inode = fun i => if i = before.next then ⟨[], none⟩ else before.inode i
  next : after.next = before.next + 1
  file : af.file = some ⟨before.next, 0⟩
  written : af.written = 0
  hasher : af.hasher = []
  committed : af.committed = false

namespace AutoMkcolFs

/-- `ensure_parent` makes directories and nothing else. -/
theorem ensure_parent_grows (k : Kernel) (fs : AutoMkcolFs) (d : Disk) (path : List String)
    (fault : Option (Errno × Nat)) :
    Grows d.tree (fs.ensure_parent k d path fault).1.tree ∧
      (fs.ensure_parent k d path fault).1.inode = d.inode ∧
      (fs.ensure_parent k d path fault).1.next = d.next := by
  unfold ensure_parent
  split
  · exact ⟨Grows.refl _, rfl, rfl⟩
  · dsimp only
    split
    · exact ⟨Kernel.create_dir_all_grows k d.tree _, rfl, rfl⟩
    · exact ⟨Grows.refl _, rfl, rfl⟩

/-- **A successful `open`** has ensured the parent and put one empty file, under
a new inode number, beside the target. -/
theorem open_spec {k : Kernel} {fs : AutoMkcolFs} {d d' : Disk} {path : List String}
    {options : OpenOptions} {fault : OpenFault} {af : AtomicFile}
    (h : fs.open_ k d path options fault = (d', .ok (.atomic af))) :
    ∃ dm o, fs.ensure_parent k d path fault.parent = (dm, none) ∧ Opening k dm d' o af ∧
      af.target_path = fs.fspath path ∧ af.expected_size = options.size ∧
      af.expected_checksum = options.checksum ∧ af.fsync = fs.fsync := by
  unfold open_ at h
  dsimp only at h
  split at h
  · cases h
  · rename_i dm hens
    split at h
    · rename_i hflags
      simp only [Bool.and_eq_true] at hflags
      rw [if_pos (by simp [hflags])] at hens
      unfold open_atomic at h
      dsimp only at h
      split at h
      · cases h
      · split at h
        · cases h
        · rename_i hnd
          split at h
          · cases h
          · split at h
            · cases h
            · rename_i d₁ temp file hct
              simp only [Prod.mk.injEq, Except.ok.injEq, Opened.atomic.injEq] at h
              obtain ⟨rfl, rfl⟩ := h
              -- the temp file: one of the names tried, created by `create_new`
              obtain ⟨hmem, hnew⟩ := create_temp_from_ok hct
              obtain ⟨tn, rfl, hne⟩ := mem_temp_paths hmem
              obtain ⟨hcn, rfl, hnext, hino⟩ := Disk.create_new_ok hnew
              obtain ⟨D, n, hslot, hD, hfree, hget⟩ := Kernel.create_new_spec hcn
              obtain ⟨hstat, -, rfl⟩ := Kernel.slot_child_eq_some.mp hslot
              refine ⟨dm, ⟨_, tn, D⟩, hens, ⟨rfl, fun m hm => ⟨?_, hne m hm⟩, hstat, hD, hfree,
                ?_, hget, hino, hnext, rfl, rfl, rfl, rfl⟩, rfl, rfl, rfl, rfl⟩
              -- the target is the child of its parent that its file name says
              · have hchild : fs.fspath path = Path.child ⟨(fs.fspath path).root,
                    (fs.fspath path).comps.dropLast⟩ m := Path.eq_child_of_file_name hm
                have hpar : (fs.fspath path).parent = some ⟨(fs.fspath path).root,
                    (fs.fspath path).comps.dropLast⟩ := by
                  rw [hchild, Path.parent_child]
                  simp [Path.child]
                rw [hpar, Option.getD_some]
                exact hchild
              · exact Bool.eq_false_iff.mpr hnd
    · cases h

/-- Ensuring the parent shows at the target what was there before. -/
theorem ensure_parent_view {k : Kernel} {fs : AutoMkcolFs} {d dm : Disk} {path : List String}
    {fault : Option (Errno × Nat)} (hroot : k.is_dir d.tree fs.root = true)
    (h : fs.ensure_parent k d path fault = (dm, none)) :
    dm = d ∨ ∃ l n, k.stat d.tree (fs.fspath path) = none ∧
      fs.fspath path = (fs.root.down path.dropLast).child n ∧
      k.stat dm.tree (fs.root.down path.dropLast) = some l ∧
      dm.tree.get l = some .dir ∧ ∀ s, s ≠ [] → dm.tree.get (l ++ s) = none := by
  unfold ensure_parent at h
  split at h
  · cases h
    exact .inl rfl
  · dsimp only at h
    split at h
    · rename_i hp
      cases fault with
      | some f => cases h
      | none =>
          have hok : (k.create_dir_all d.tree (fs.root.down path.dropLast)).2 = none := by
            have := congrArg Prod.snd h
            simpa [Disk.create_dir_all] using this
          have hdm : (d.create_dir_all k (fs.root.down path.dropLast) none).1 = dm :=
            congrArg Prod.fst h
          have htree : dm.tree = (k.create_dir_all d.tree (fs.root.down path.dropLast)).1 := by
            rw [← hdm]
            rfl
          -- a parent that is there is left as it is
          cases hd : k.is_dir d.tree (fs.root.down path.dropLast) with
          | true =>
              left
              rw [← hdm]
              simp only [Disk.create_dir_all, Kernel.create_dir_all_of_is_dir hd]
          | false =>
              right
              obtain ⟨l, hs, -, hdir, hempty⟩ := Kernel.create_dir_all_fresh hroot hd hok
              rcases List.eq_nil_or_concat path with rfl | ⟨q, n, rfl⟩
              · exact absurd (Path.down_nil _) hp
              · rw [List.concat_eq_append, List.dropLast_concat] at hs hdir hempty hd htree ⊢
                have hchild : fs.fspath (q ++ [n]) = (fs.root.down q).child n := by
                  rw [fspath, Path.down_child]
                rw [htree]
                exact ⟨l, n, by rw [hchild]; exact Kernel.stat_child_of_not_dir hd n, hchild, hs,
                  hdir, hempty⟩
    · cases h
      exact .inl rfl

end AutoMkcolFs

end WebDavs.AutoFs
