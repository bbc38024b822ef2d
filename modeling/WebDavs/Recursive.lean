/-
A directory tree, uploaded request by request.

A client that copies a tree sends an `MKCOL` for each directory and a `PUT` for
each file, in an order of its own; a file may come before the directory it is
in. Every request makes what is missing above it, so what is on the disk after
some of them depends on which they were and not on their order: the paths of
those requests and everything on the way to them (`Built`). After all of them
that is the tree (`uploads_any_order`).
-/
import WebDavs.UploadSteps
import WebDavs.Posix.Below

set_option autoImplicit false

namespace WebDavs.AutoFs

open WebDavs.Posix WebDavs.Posix.FileTree WebDavs.Steps

/-! ## The requests -/

namespace AtomicFile

/-- The body, call by call, until one fails. -/
def write_all (af : AtomicFile) (d : Disk) : List WriteCall → AtomicFile × Disk × Except FsError Unit
  | [] => (af, d, .ok ())
  | call :: calls =>
    match af.write d call with
    | (af, d, .ok ()) => write_all af d calls
    | (af, d, .error e) => (af, d, .error e)

/-- What is done with the file of a `PUT`: the body goes in, the file is flushed
and, whatever came of it, dropped. -/
def put (k : Kernel) (c : Crates) (af : AtomicFile) (d : Disk) (calls : List WriteCall)
    (fault : CommitFault) : Disk × Except FsError Unit :=
  match af.write_all d calls with
  | (af, d, .error e) => (af.drop k d, .error e)
  | (af, d, .ok ()) =>
    match af.flush k c d fault with
    | (af, d, r) => (af.drop k d, r)

end AtomicFile

/-- A request, with what the environment does to it. -/
inductive Request where
  | mkcol (path : List String) (parent : Option (Errno × Nat)) (fault : Option Errno)
  | put (path : List String) (options : OpenOptions) (fault : OpenFault)
      (calls : List AtomicFile.WriteCall) (commit : AtomicFile.CommitFault)

/-- One request, from its first call to its answer. A `PUT` that is left to
`LocalFs` is none of these. -/
def AutoMkcolFs.handle (k : Kernel) (c : Crates) (fs : AutoMkcolFs) (d : Disk) :
    Request → Option (Disk × Except FsError Unit)
  | .mkcol path parent fault => some (fs.create_dir k d path parent fault)
  | .put path options fault calls commit =>
    match fs.open_ k d path options fault with
    | (d, .ok (.atomic af)) => some (af.put k c d calls commit)
    | (d, .error e) => some (d, .error e)
    | (_, .ok .inner) => none

/-- The disk after a request. -/
def AutoMkcolFs.serve (k : Kernel) (c : Crates) (fs : AutoMkcolFs) (d : Disk) (r : Request) :
    Option Disk :=
  (fs.handle k c d r).map Prod.fst

/-! ## The tree -/

/-- What a tree has at one of its paths. -/
inductive Node where
  | dir
  | file (body : Bytes)

/-- A finite tree of directories and files, by its paths. -/
structure Tree where
  nodes : List (List String × Node)
  nodup : (nodes.map Prod.fst).Nodup
  below : ∀ e ∈ nodes, e.1 ≠ []
  closed : ∀ e ∈ nodes, ∀ s, s ≠ [] → s <+: e.1 → s ≠ e.1 → (s, Node.dir) ∈ nodes

/-- The part of the tree a request is for. -/
def Request.node : Request → List String × Node
  | .mkcol path _ _ => (path, .dir)
  | .put path _ _ calls _ => (path, .file (calls.flatMap AtomicFile.WriteCall.body))

/-- A call that carries its part of the body to the disk. -/
def AtomicFile.WriteCall.Smooth : AtomicFile.WriteCall → Prop
  | .bytes _ fault => fault = none
  | .buf _ sched => ∀ r ∈ sched, ∃ n, r = Except.ok (n + 1)

/-- A request nothing goes wrong with: no call of it fails, what the client has
announced of the body is true and there is room for it. -/
def Request.Smooth (c : Crates) : Request → Prop
  | .mkcol _ parent fault => parent = none ∧ fault = none
  | .put _ options fault calls commit =>
    options.write = true ∧ options.create = true ∧ options.truncate = true ∧
      (∀ n, options.size = some n → n = (calls.flatMap AtomicFile.WriteCall.body).length) ∧
      (∀ sum, options.checksum.bind (parse_sha256_checksum c) = some sum →
        sum = c.sha256 (calls.flatMap AtomicFile.WriteCall.body)) ∧
      fault.parent = none ∧ AutoMkcolFs.lacks_space options.size fault.free_space = false ∧
      (∀ p, fault.temp p = none) ∧ (∀ call ∈ calls, call.Smooth) ∧
      commit.sync = none ∧ commit.rename = none

/-- The marker of temp names is in the name. -/
def Marked (n : String) : Prop := ".uploading.nzk_webdavs".toList <:+: n.toList

/-- What is at a place, with what is in it. -/
def Disk.image (d : Disk) (x : Loc) : Option (Entry Inode) :=
  match d.tree.get x with
  | none => none
  | some .dir => some .dir
  | some (.file i) => some (.file (d.inode i))
  | some (.symlink p) => some (.symlink p)

/-- What an upload leaves of a node: a file comes with its digest. -/
def Node.entry (c : Crates) : Node → Entry Inode
  | .dir => .dir
  | .file body => .file ⟨body, some (c.hex_encode (c.sha256 body))⟩

/-- The answer a request is to get: a `PUT` succeeds, and an `MKCOL` does, unless
the directory is there already. -/
def Answered (k : Kernel) (fs : AutoMkcolFs) (d : Disk) : Request → Except FsError Unit → Prop
  | .put .., answer => answer = .ok ()
  | .mkcol path .., answer => answer = .ok () ∨
      (answer = .error .exists_ ∧ k.is_dir d.tree (fs.fspath path) = true)

/-! ## Writing the body -/

namespace AtomicFile

theorem write_buf_loop_smooth {sched : WriteSched} (h : ∀ r ∈ sched, ∃ n, r = Except.ok (n + 1))
    (d : Disk) (f : Handle) (hasher : Bytes) (chunks : List Bytes) :
    (write_buf_loop d f hasher sched chunks).2.2.2 = .ok () := by
  induction sched generalizing d f hasher chunks with
  | nil => rfl
  | cons r sched ih =>
    obtain ⟨n, rfl⟩ := h r List.mem_cons_self
    have hrest : ∀ r ∈ sched, ∃ n, r = Except.ok (n + 1) :=
      fun r hr => h r (List.mem_cons_of_mem _ hr)
    unfold write_buf_loop
    split
    · rfl
    · dsimp only
      rw [if_neg (Nat.succ_ne_zero n)]
      exact ih hrest _ _ _ _

theorem write_smooth {call : WriteCall} (h : call.Smooth) {af : AtomicFile} {f : Handle}
    (hf : af.file = some f) (d : Disk) : (af.write d call).2.2 = .ok () := by
  cases call with
  | bytes buf fault =>
    have hnone : fault = none := h
    simp only [write, write_bytes, hf, hnone]
  | buf chunks sched =>
    simp only [write, write_buf, hf]
    exact write_buf_loop_smooth h _ _ _ _

/-- **A body whose calls all go through** is in the file from end to end, and the
hasher and the counter have it too. -/
theorem write_all_smooth {calls : List WriteCall} (h : ∀ call ∈ calls, call.Smooth)
    {af : AtomicFile} {d : Disk} {f : Handle} (hf : af.file = some f) (hend : AtEnd d f) :
    ∃ af' d' f', af.write_all d calls = (af', d', .ok ()) ∧ af'.file = some f' ∧
      Appended d d' f f' (calls.flatMap WriteCall.body) ∧ SameUpload af af' ∧
      af'.hasher = af.hasher ++ calls.flatMap WriteCall.body ∧
      af'.written = af.written + (calls.flatMap WriteCall.body).length := by
  induction calls generalizing af d f with
  | nil =>
    refine ⟨af, d, f, rfl, hf, Appended.refl hend, ⟨rfl, rfl, rfl, rfl, rfl, rfl⟩, ?_, ?_⟩
    · simp
    · simp
  | cons call calls ih =>
    obtain ⟨f₁, bs, hf₁, happ, hsame, hok⟩ := write_spec hf hend call
    have hres := write_smooth (h call List.mem_cons_self) hf d
    obtain ⟨rfl, hhash, hlen⟩ := hok hres
    obtain ⟨af', d', f', hall, hf', happ', hsame', hhash', hlen'⟩ :=
      ih (fun x hx => h x (List.mem_cons_of_mem _ hx)) hf₁ happ.atEnd
    refine ⟨af', d', f', ?_, hf', ?_, ?_, ?_, ?_⟩
    · rw [write_all]
      generalize hr : af.write d call = r at hres hall
      obtain ⟨af₁, d₁, res⟩ := r
      subst hres
      exact hall
    · rw [List.flatMap_cons]
      exact happ.trans happ'
    · exact ⟨hsame'.temp_path.trans hsame.temp_path, hsame'.target_path.trans hsame.target_path,
        hsame'.expected_size.trans hsame.expected_size, hsame'.committed.trans hsame.committed,
        hsame'.fsync.trans hsame.fsync, hsame'.expected_checksum.trans hsame.expected_checksum⟩
    · rw [hhash', hhash, List.flatMap_cons, List.append_assoc]
    · rw [hlen', hlen, List.flatMap_cons, List.length_append, Nat.add_assoc]

end AtomicFile

/-! ## What one request does -/

/-- A commit that nothing stops. -/
theorem AtomicFile.flush_renames {k : Kernel} {c : Crates} {af : AtomicFile} {d d' : Disk}
    {fault : CommitFault} (hcom : af.committed = false) (hmatch : af.checksum_mismatch c = false)
    (hsync : fault.sync = none) (hshould : af.should_commit = true)
    (hr : d.rename k af.temp_path af.target_path fault.rename = .ok d') :
    af.flush k c d fault = ({ af.closed with committed := true },
      set_xattr_sha256 k d' af.target_path (c.hex_encode (c.sha256 af.hasher)), .ok ()) := by
  have hsynced : (if af.fsync && af.file.isSome then fault.sync else none) = none := by
    rw [hsync, ite_self]
  have hcase := commit_cases k c af d fault
  rw [flush]
  generalize af.commit k c d fault = r at hcase
  cases hcase with
  | again h =>
    rw [hcom] at h
    cases h
  | mismatch h hm =>
    rw [hmatch] at hm
    cases hm
  | unsynced h hm e hs =>
    rw [hsynced] at hs
    cases hs
  | incomplete h hm hs hw =>
    rw [hshould] at hw
    cases hw
  | unrenamed h hm hs hw e he =>
    rw [hr] at he
    cases he
  | renamed h hm hs hw d₁ hr₁ =>
    rw [hr] at hr₁
    cases hr₁
    rfl

theorem inode_eq {i : Inode} {content : Bytes} {sha256 : Option String}
    (hc : i.content = content) (hs : i.sha256 = sha256) : i = ⟨content, sha256⟩ := by
  cases i
  cases hc
  cases hs
  rfl

namespace Disk

theorem create_dir_of_ok {k : Kernel} {d : Disk} {p : Path} {t : FileTree Nat}
    (h : k.mkdir d.tree p = .ok t) :
    ∃ d', d.create_dir k p none = .ok d' ∧ d'.tree = t ∧ d'.inode = d.inode ∧ d'.next = d.next := by
  unfold create_dir
  split
  · rename_i he
    cases he
  · split
    · rename_i he
      rw [h] at he
      cases he
    · rename_i t' ht
      rw [h] at ht
      cases ht
      exact ⟨_, rfl, rfl, rfl, rfl⟩

theorem create_dir_of_error {k : Kernel} {d : Disk} {p : Path} {e : Errno}
    (h : k.mkdir d.tree p = .error e) : d.create_dir k p none = .error e := by
  unfold create_dir
  dsimp only
  split
  · rename_i he
    rw [h] at he
    cases he
    rfl
  · rename_i t ht
    rw [h] at ht
    cases ht

theorem create_new_of_ok {k : Kernel} {d : Disk} {p : Path} {t : FileTree Nat}
    (h : k.create_new d.tree p d.next = .ok t) : ∃ d' f, d.create_new k p = .ok (d', f) := by
  unfold create_new
  split
  · rename_i he
    rw [h] at he
    cases he
  · exact ⟨_, _, rfl⟩

theorem rename_of_ok {k : Kernel} {d : Disk} {p q : Path} {t : FileTree Nat}
    (h : k.rename d.tree p q = .ok t) : ∃ d', d.rename k p q none = .ok d' ∧ d'.tree = t := by
  unfold rename
  dsimp only
  split
  · rename_i he
    rw [h] at he
    cases he
  · rename_i t' ht
    rw [h] at ht
    cases ht
    exact ⟨_, rfl, rfl⟩

end Disk

/-- The first name `create_temp` tries. -/
def temp_name (n : String) : String := n ++ ".uploading.nzk_webdavs"

theorem marked_temp_name (n : String) : Marked (temp_name n) := by
  rw [Marked, temp_name, String.toList_append]
  exact (List.suffix_append _ _).isInfix

theorem create_temp_first {k : Kernel} {d d' : Disk} {dir target : Path} {n : String} {f : Handle}
    {fault : Path → Option Errno} (hn : target.file_name = some n) (hfault : ∀ p, fault p = none)
    (h : d.create_new k (dir.child (temp_name n)) = .ok (d', f)) :
    create_temp k d dir target fault = .ok (d', dir.child (temp_name n), f) := by
  have hfirst : ∃ rest, temp_paths dir target = dir.child (temp_name n) :: rest := by
    simp only [temp_paths, hn, Option.getD_some]
    exact ⟨_, rfl⟩
  obtain ⟨rest, hrest⟩ := hfirst
  rw [create_temp, hrest, create_temp_from, hfault]
  simp only [h]

section Below

variable {k : Kernel} {c : Crates} {fs : AutoMkcolFs} {d : Disk} {B : Loc} {q : List String}
  {n : String}

/-- `ensure_parent` below a root that is there, with nothing in the way. -/
theorem ensure_parent_below (hparents : fs.create_parents = true)
    (hb : k.stat d.tree fs.root = some B) (hB : d.tree.get B = some .dir)
    (hq : d.tree.Passable B q) :
    ∃ dm, fs.ensure_parent k d (q ++ [n]) none = (dm, none) ∧ Laid d.tree B q dm.tree ∧
      dm.inode = d.inode ∧ dm.next = d.next := by
  unfold AutoMkcolFs.ensure_parent
  rw [hparents, List.dropLast_concat]
  by_cases hroot : fs.root.down q ≠ fs.root
  · obtain ⟨t', ht', hlaid⟩ := Kernel.create_dir_all_below hb hB hq
    simp only [Bool.not_true, Bool.false_eq_true, if_false, if_pos hroot, Disk.create_dir_all, ht',
      Option.map_none]
    exact ⟨_, rfl, hlaid, rfl, rfl⟩
  · have hnil : q = [] := by
      rw [ne_eq, not_not] at hroot
      have hdown : fs.root.down q = fs.root.down [] := by rw [hroot, Path.down_nil]
      exact Path.down_injective _ hdown
    subst hnil
    simp only [Bool.not_true, Bool.false_eq_true, if_false, if_neg hroot]
    exact ⟨d, rfl, Laid.refl_of_dir (by rwa [List.append_nil]), rfl, rfl⟩

/-- The atomic branch of `open`, where the target and the temp name are free. -/
theorem open_atomic_below {options : OpenOptions} {fault : OpenFault}
    (hb : k.stat d.tree fs.root = some B) (hq : d.tree.get (B ++ q) = some .dir)
    (hn : d.tree.get (B ++ (q ++ [n])) = none)
    (htn : d.tree.get (B ++ (q ++ [temp_name n])) = none)
    (hspace : AutoMkcolFs.lacks_space options.size fault.free_space = false)
    (htemp : ∀ p, fault.temp p = none) :
    ∃ d₁, fs.open_atomic k d (q ++ [n]) options fault = (d₁, .ok (.atomic
        (.new (fs.root.down (q ++ [temp_name n])) (fs.root.down (q ++ [n])) options.size
          options.checksum ⟨d.next, 0⟩ fs.fsync))) ∧
      (∀ x, d₁.tree.get x = if x = B ++ (q ++ [temp_name n]) then some (.file d.next)
        else d.tree.get x) ∧
      (d₁.inode = fun i => if i = d.next then ⟨[], none⟩ else d.inode i) ∧
      d₁.next = d.next + 1 := by
  have hstat : k.stat d.tree (fs.root.down (q ++ [n])) = none := by
    rw [← Path.down_child]
    refine Kernel.stat_child_of_none (Kernel.stat_below hb hq) ?_
    rwa [List.append_assoc]
  obtain ⟨t, ht⟩ := Kernel.create_new_below hb hq htn
  obtain ⟨d₁, f, hd₁⟩ := Disk.create_new_of_ok ht
  obtain ⟨hcn, rfl, hnext, hinode⟩ := Disk.create_new_ok hd₁
  refine ⟨d₁, ?_, ?_, hinode, hnext⟩
  · have hex : k.exists_ d.tree (fs.fspath (q ++ [n])) = false := by
      rw [AutoMkcolFs.fspath, Kernel.exists_, hstat]
      rfl
    have hnd : k.is_dir d.tree (fs.fspath (q ++ [n])) = false := by
      rw [AutoMkcolFs.fspath, Kernel.is_dir, hstat]
    rw [← Path.down_child] at hd₁
    have htmp := create_temp_first (Path.file_name_down_concat fs.root q n) htemp hd₁
    simp only [AutoMkcolFs.open_atomic, hex, hnd, hspace, Bool.and_false, Bool.false_eq_true,
      if_false]
    rw [AutoMkcolFs.fspath, Path.parent_down_concat, Option.getD_some, htmp, Path.down_child]
  · obtain ⟨D, m, hslot, -, -, hg⟩ := Kernel.create_new_spec hcn
    rw [Kernel.slot_below hb hq] at hslot
    cases hslot
    intro x
    rw [hg, List.append_assoc]

/-- The file of a `PUT` from its first byte to its drop, with nothing going
wrong: it is at the target, with its digest, and the temp file is gone. -/
theorem put_below {d₁ : Disk} {size : Option Nat} {sum : Option String} (fsync : Bool)
    {calls : List AtomicFile.WriteCall} {fault : AtomicFile.CommitFault}
    (hb : k.stat d.tree fs.root = some B) (hq : d.tree.get (B ++ q) = some .dir)
    (hn : d.tree.get (B ++ (q ++ [n])) = none)
    (htn : d.tree.get (B ++ (q ++ [temp_name n])) = none)
    (hget : ∀ x, d₁.tree.get x = if x = B ++ (q ++ [temp_name n]) then some (.file d.next)
      else d.tree.get x)
    (hinode : d₁.inode = fun i => if i = d.next then ⟨[], none⟩ else d.inode i)
    (hnext : d₁.next = d.next + 1)
    (hsize : ∀ m, size = some m → m = (calls.flatMap AtomicFile.WriteCall.body).length)
    (hsum : ∀ v, sum.bind (parse_sha256_checksum c) = some v →
      v = c.sha256 (calls.flatMap AtomicFile.WriteCall.body))
    (hcalls : ∀ call ∈ calls, call.Smooth) (hsync : fault.sync = none)
    (hrename : fault.rename = none) :
    ∃ d', (AtomicFile.new (fs.root.down (q ++ [temp_name n])) (fs.root.down (q ++ [n])) size sum
        ⟨d.next, 0⟩ fsync).put k c d₁ calls fault = (d', .ok ()) ∧
      (∀ x, d'.tree.get x = if x = B ++ (q ++ [n]) then some (.file d.next) else d.tree.get x) ∧
      (∀ i, d'.inode i = if i = d.next then ⟨calls.flatMap AtomicFile.WriteCall.body,
        some (c.hex_encode (c.sha256 (calls.flatMap AtomicFile.WriteCall.body)))⟩
          else d.inode i) ∧
      d'.next = d.next + 1 := by
  have hnew : d₁.inode d.next = ⟨[], none⟩ := by simp [hinode]
  have hend : AtomicFile.AtEnd d₁ ⟨d.next, 0⟩ := by
    rw [AtomicFile.AtEnd, hnew]
    rfl
  generalize haf : AtomicFile.new (fs.root.down (q ++ [temp_name n])) (fs.root.down (q ++ [n]))
    size sum ⟨d.next, 0⟩ fsync = af
  have hfile : af.file = some ⟨d.next, 0⟩ := by rw [← haf]; rfl
  obtain ⟨af₂, d₂, f₂, hall, hf₂, happ, hsame, hhash, hwritten⟩ :=
    AtomicFile.write_all_smooth hcalls hfile hend
  have hhash' : af₂.hasher = calls.flatMap AtomicFile.WriteCall.body := by
    rw [hhash, ← haf]
    exact List.nil_append _
  have hwritten' : af₂.written = (calls.flatMap AtomicFile.WriteCall.body).length := by
    rw [hwritten, ← haf]
    exact Nat.zero_add _
  have htemp : af₂.temp_path = fs.root.down (q ++ [temp_name n]) := by
    rw [hsame.temp_path, ← haf]
    rfl
  have htarget : af₂.target_path = fs.root.down (q ++ [n]) := by
    rw [hsame.target_path, ← haf]
    rfl
  have hcom : af₂.committed = false := by
    rw [hsame.committed, ← haf]
    rfl
  -- the temp file is not at the target
  have hne : B ++ (q ++ [n]) ≠ B ++ (q ++ [temp_name n]) := by
    intro he
    have hlen := congrArg String.length
      (List.singleton_inj.mp (List.append_cancel_left (List.append_cancel_left he)))
    have hmark : ".uploading.nzk_webdavs".length = 22 := by decide
    rw [temp_name, String.length_append] at hlen
    omega
  -- what was there before is there still
  have hext : Extends d.tree d₁.tree := by
    intro x e hx
    rw [hget, if_neg, hx]
    rintro rfl
    rw [htn] at hx
    cases hx
  have hn₁ : d₁.tree.get (B ++ (q ++ [n])) = none := by rw [hget, if_neg hne, hn]
  have htn₁ : d₁.tree.get (B ++ (q ++ [temp_name n])) = some (.file d.next) := by
    rw [hget, if_pos rfl]
  obtain ⟨t, ht, hgt⟩ := Kernel.rename_below (Kernel.stat_extends hext hb) (hext _ _ hq) htn₁ hn₁
  have hren : ∃ d₃, d₂.rename k af₂.temp_path af₂.target_path fault.rename = .ok d₃ ∧
      d₃.tree = t := by
    rw [htemp, htarget, hrename]
    refine Disk.rename_of_ok ?_
    rw [happ.tree]
    exact ht
  obtain ⟨d₃, hd₃, htree⟩ := hren
  obtain ⟨-, -, hino₃, hnext₃⟩ := Disk.rename_ok hd₃
  have hget₃ : ∀ x, d₃.tree.get x = if x = B ++ (q ++ [n]) then some (.file d.next)
      else d.tree.get x := by
    intro x
    rw [htree, hgt]
    by_cases hx : x = B ++ (q ++ [n])
    · rw [if_pos hx, if_pos hx]
    · rw [if_neg hx, if_neg hx]
      by_cases hxt : x = B ++ (q ++ [temp_name n])
      · rw [if_pos hxt, hxt, htn]
      · rw [if_neg hxt, hget, if_neg hxt]
  have hext₃ : Extends d.tree d₃.tree := by
    intro x e hx
    rw [hget₃, if_neg, hx]
    rintro rfl
    rw [hn] at hx
    cases hx
  have hread : k.read d₃.tree af₂.target_path = some d.next := by
    have hat : d₃.tree.get (B ++ (q ++ [n])) = some (.file d.next) := by rw [hget₃, if_pos rfl]
    rw [htarget]
    exact Kernel.read_eq_some.mpr
      ⟨_, Kernel.stat_down_of_get (Kernel.stat_extends hext₃ hb) hat (by simp), hat⟩
  -- every check of `commit` passes
  have hmatch : af₂.checksum_mismatch c = false := by
    have hsum₂ : af₂.expected_checksum = sum := by
      rw [hsame.expected_checksum, ← haf]
      rfl
    rw [AtomicFile.checksum_mismatch, hsum₂, hhash']
    cases hv : sum.bind (parse_sha256_checksum c) with
    | none => rfl
    | some v => simp [hsum v hv]
  have hshould : af₂.should_commit = true := by
    have hsize₂ : af₂.expected_size = size := by
      rw [hsame.expected_size, ← haf]
      rfl
    rw [AtomicFile.should_commit, hsize₂]
    cases hm : size with
    | none => rfl
    | some m =>
      rw [hwritten', ← hsize m hm]
      exact decide_eq_true rfl
  have hflush := AtomicFile.flush_renames (c := c) hcom hmatch hsync hshould hd₃
  obtain ⟨htree₄, hnext₄, hcont₄, hsha₄⟩ := AtomicFile.set_xattr_sha256_spec k d₃ af₂.target_path
    (c.hex_encode (c.sha256 af₂.hasher))
  refine ⟨AtomicFile.set_xattr_sha256 k d₃ af₂.target_path (c.hex_encode (c.sha256 af₂.hasher)),
    ?_, ?_, ?_, ?_⟩
  · simp only [AtomicFile.put, hall, hflush, AtomicFile.drop, if_true]
  · intro x
    rw [htree₄]
    exact hget₃ x
  · intro i
    by_cases hi : i = d.next
    · subst hi
      rw [if_pos rfl]
      have hcont : ((AtomicFile.set_xattr_sha256 k d₃ af₂.target_path
          (c.hex_encode (c.sha256 af₂.hasher))).inode d.next).content
            = calls.flatMap AtomicFile.WriteCall.body := by
        have hc := happ.content
        rw [hcont₄, hino₃]
        simpa only [hnew, List.nil_append] using hc
      have hsha := hsha₄ _ hread
      rw [hhash'] at hsha hcont ⊢
      exact inode_eq hcont hsha
    · rw [if_neg hi, AtomicFile.set_xattr_sha256_others _ hread hi, hino₃, happ.others i hi, hinode]
      exact if_neg hi
  · rw [hnext₄, hnext₃, happ.next, hnext]

end Below

/-! ## The tree so far -/

/-- Where the uploads start: a server that makes parents and writes atomically,
on a root that resolves, has nothing of the tree in it and bears, like the tree,
no reserved name. -/
structure Ground (k : Kernel) (fs : AutoMkcolFs) (d : Disk) (B : Loc) (T : Tree) : Prop where
  parents : fs.create_parents = true
  atomic : fs.atomic_writes = true
  root : k.stat d.tree fs.root = some B
  dir : d.tree.get B = some .dir
  absent : ∀ e ∈ T.nodes, d.tree.get (B ++ e.1) = none
  unmarked : ∀ e ∈ T.nodes, ∀ n ∈ e.1, ¬ Marked n
  clean : ∀ r, d.tree.get (B ++ r) ≠ none → ∀ n ∈ r, ¬ Marked n

/-- The disk has on it what it had at first and, below `B`, the nodes of `P` and
the directories on the way to them. -/
structure Built (c : Crates) (d₀ : Disk) (B : Loc) (P : List (List String × Node)) (d : Disk) :
    Prop where
  above : ∀ e ∈ P, ∀ s, s ≠ [] → s <+: e.1 → s ≠ e.1 → d.tree.get (B ++ s) = some .dir
  there : ∀ e ∈ P, d.image (B ++ e.1) = some (e.2.entry c)
  rest : ∀ x, (∀ e ∈ P, ∀ s, s ≠ [] → s <+: e.1 → x ≠ B ++ s) → d.tree.get x = d₀.tree.get x
  inode : ∀ i, i < d₀.next → d.inode i = d₀.inode i
  next : d₀.next ≤ d.next

theorem Disk.image_dir {d : Disk} {x : Loc} : d.image x = some .dir ↔ d.tree.get x = some .dir := by
  unfold image
  split <;> rename_i h <;> simp [h]

theorem Disk.image_congr {d d' : Disk} {x : Loc} (ht : d'.tree.get x = d.tree.get x)
    (hi : ∀ i, d.tree.get x = some (.file i) → d'.inode i = d.inode i) :
    d'.image x = d.image x := by
  unfold image
  rw [ht]
  split
  · rfl
  · rfl
  · rename_i i h
    rw [hi i h]
  · rfl

/-- A path is one node of the tree. -/
theorem Tree.unique (T : Tree) {p : List String} {a b : Node} (ha : (p, a) ∈ T.nodes)
    (hb : (p, b) ∈ T.nodes) : a = b := by
  have he := List.inj_on_of_nodup_map T.nodup ha hb rfl
  exact congrArg Prod.snd he

/-- What is on the way to a node is a directory of the tree, or the node
itself. -/
theorem Tree.on_the_way (T : Tree) {e : List String × Node} (he : e ∈ T.nodes) {s : List String}
    (hs : s ≠ []) (hse : s <+: e.1) : (s, Node.dir) ∈ T.nodes ∨ s = e.1 := by
  by_cases h : s = e.1
  · exact .inr h
  · exact .inl (T.closed e he s hs hse h)

section Building

variable {k : Kernel} {c : Crates} {fs : AutoMkcolFs} {d₀ d : Disk} {B : Loc} {T : Tree}
  {P : List (List String × Node)}

/-- At the start nothing is built. -/
theorem built_start (c : Crates) (d : Disk) (B : Loc) : Built c d B [] d where
  above _ he := absurd he List.not_mem_nil
  there _ he := absurd he List.not_mem_nil
  rest _ _ := rfl
  inode _ _ := rfl
  next := Nat.le_refl _

/-- What was there stays there: none of it is in the tree. -/
theorem Built.extends (h : Built c d₀ B P d) (hg : Ground k fs d₀ B T) (hP : P ⊆ T.nodes) :
    Extends d₀.tree d.tree := by
  intro x e hx
  rw [h.rest, hx]
  rintro e' he' s hs hse rfl
  have hnone : d₀.tree.get (B ++ s) = none := by
    rcases T.on_the_way (hP he') hs hse with hd | rfl
    · exact hg.absent _ hd
    · exact hg.absent _ (hP he')
  rw [hnone] at hx
  cases hx

/-- A node of the tree that no request so far has touched is not there yet. -/
theorem Built.untouched (h : Built c d₀ B P d) (hg : Ground k fs d₀ B T) {e : List String × Node}
    (he : e ∈ T.nodes) (hno : ∀ e' ∈ P, ¬ e.1 <+: e'.1) : d.tree.get (B ++ e.1) = none := by
  rw [h.rest]
  · exact hg.absent e he
  · intro e' he' s _ hse heq
    rw [← List.append_cancel_left heq] at hse
    exact hno e' he' hse

/-- A directory of the tree is there or not. -/
theorem Built.dir_or_none (h : Built c d₀ B P d) (hg : Ground k fs d₀ B T) (hP : P ⊆ T.nodes)
    {s : List String} (hs : (s, Node.dir) ∈ T.nodes) :
    d.tree.get (B ++ s) = some .dir ∨ d.tree.get (B ++ s) = none := by
  by_cases hyes : ∃ e' ∈ P, s <+: e'.1
  · left
    obtain ⟨e', he', hse⟩ := hyes
    by_cases heq : s = e'.1
    · have hdir : e'.2 = .dir := T.unique (p := s) (heq ▸ hP he') hs
      have hthere := h.there e' he'
      rw [hdir, ← heq] at hthere
      exact Disk.image_dir.mp hthere
    · exact h.above e' he' s (T.below _ hs) hse heq
  · right
    exact h.untouched hg hs fun e' he' hse => hyes ⟨e', he', hse⟩

/-- A file of the tree is not there before its request. -/
theorem Built.file_absent (h : Built c d₀ B P d) (hg : Ground k fs d₀ B T) (hP : P ⊆ T.nodes)
    {p : List String} {body : Bytes} (hp : (p, Node.file body) ∈ T.nodes)
    (hnew : (p, Node.file body) ∉ P) : d.tree.get (B ++ p) = none := by
  refine h.untouched hg hp ?_
  intro e' he' hpe
  by_cases heq : p = e'.1
  · have hfile : e'.2 = .file body := T.unique (p := p) (heq ▸ hP he') hp
    refine hnew ?_
    rw [← hfile, heq]
    exact he'
  · have hdir := T.closed e' (hP he') p (T.below _ hp) hpe heq
    cases T.unique hdir hp

/-- Nothing ever bears a reserved name. -/
theorem Built.unmarked (h : Built c d₀ B P d) (hg : Ground k fs d₀ B T) (hP : P ⊆ T.nodes)
    {r : List String} {n : String} (hn : n ∈ r) (hm : Marked n) : d.tree.get (B ++ r) = none := by
  rw [h.rest]
  · by_contra hne
    exact hg.clean r hne n hn hm
  · intro e' he' s _ hse heq
    rw [List.append_cancel_left heq] at hn
    exact hg.unmarked e' (hP he') n (hse.subset hn) hm

/-- The way to a node is open. -/
theorem Built.passable (h : Built c d₀ B P d) (hg : Ground k fs d₀ B T) (hP : P ⊆ T.nodes)
    {e : List String × Node} (he : e ∈ T.nodes) {q : List String} {n : String}
    (hq : e.1 = q ++ [n]) : d.tree.Passable B q := by
  intro s hs hsq
  refine h.dir_or_none hg hP (T.closed e he s hs ?_ ?_)
  · rw [hq]
    exact hsq.trans (List.prefix_append q [n])
  · rintro rfl
    have hlen := hsq.length_le
    rw [hq, List.length_append, List.length_singleton] at hlen
    omega

/-- **One part of the tree after another.** -/
theorem Built.trans {d' : Disk} {Q : List (List String × Node)} (h : Built c d₀ B P d)
    (h' : Built c d B Q d') (hP : P ⊆ T.nodes) (hQ : Q ⊆ T.nodes) :
    Built c d₀ B (P ++ Q) d' := by
  -- a directory of the tree that is there stays
  have hdir : ∀ s, (s, Node.dir) ∈ T.nodes → d.tree.get (B ++ s) = some .dir →
      d'.tree.get (B ++ s) = some .dir := by
    intro s hs hget
    by_cases hyes : ∃ e' ∈ Q, s <+: e'.1
    · obtain ⟨e', he', hse⟩ := hyes
      by_cases heq : s = e'.1
      · have hd : e'.2 = .dir := T.unique (p := s) (heq ▸ hQ he') hs
        have hthere := h'.there e' he'
        rw [hd, ← heq] at hthere
        exact Disk.image_dir.mp hthere
      · exact h'.above e' he' s (T.below _ hs) hse heq
    · rw [h'.rest, hget]
      intro e' he' s' _ hse heq
      exact hyes ⟨e', he', List.append_cancel_left heq ▸ hse⟩
  refine ⟨?_, ?_, ?_, ?_, Nat.le_trans h.next h'.next⟩
  · intro e he s hs hse hne
    rcases List.mem_append.mp he with he | he
    · exact hdir s (T.closed e (hP he) s hs hse hne) (h.above e he s hs hse hne)
    · exact h'.above e he s hs hse hne
  · intro e he
    rcases List.mem_append.mp he with he | he
    · have hthere := h.there e he
      obtain ⟨p, node⟩ := e
      cases node with
      | dir => exact Disk.image_dir.mpr (hdir p (hP he) (Disk.image_dir.mp hthere))
      | file body =>
        by_cases hyes : ∃ e' ∈ Q, p <+: e'.1
        · obtain ⟨e', he', hpe⟩ := hyes
          by_cases heq : p = e'.1
          · have hf : e'.2 = .file body := T.unique (p := p) (heq ▸ hQ he') (hP he)
            rw [← hf]
            simp only [heq]
            exact h'.there e' he'
          · cases T.unique (T.closed e' (hQ he') p (T.below _ (hP he)) hpe heq) (hP he)
        · rw [← hthere]
          refine Disk.image_congr (h'.rest _ ?_) fun i hi => h'.inode i (d.fresh hi)
          intro e' he' s' _ hse heq
          have hps : p = s' := List.append_cancel_left heq
          exact hyes ⟨e', he', hps ▸ hse⟩
    · exact h'.there e he
  · intro x hx
    rw [h'.rest x fun e he => hx e (List.mem_append_right P he)]
    exact h.rest x fun e he => hx e (List.mem_append_left Q he)
  · intro i hi
    rw [h'.inode i (Nat.lt_of_lt_of_le hi h.next)]
    exact h.inode i hi

/-- One node, and what had to be made above it. -/
theorem built_one {dm d' : Disk} {q : List String} {n : String} {node : Node}
    (hlaid : Laid d.tree B q dm.tree)
    (hget : ∀ x, x ≠ B ++ (q ++ [n]) → d'.tree.get x = dm.tree.get x)
    (hthere : d'.image (B ++ (q ++ [n])) = some (node.entry c))
    (hinode : ∀ i, i < d.next → d'.inode i = d.inode i) (hnext : d.next ≤ d'.next) :
    Built c d B [(q ++ [n], node)] d' where
  above e he s hs hse hne := by
    obtain rfl := List.mem_singleton.mp he
    rw [hget]
    · exact hlaid.made s hs ((List.prefix_concat_iff.mp hse).resolve_left hne)
    · exact fun heq => hne (List.append_cancel_left heq)
  there e he := by
    obtain rfl := List.mem_singleton.mp he
    exact hthere
  rest x hx := by
    have hx' := hx _ (List.mem_singleton_self _)
    rw [hget x (hx' (q ++ [n]) (by simp) (List.prefix_refl _))]
    exact hlaid.rest x fun s hs hsq => hx' s hs (hsq.trans (List.prefix_append q [n]))
  inode := hinode
  next := hnext

/-- The parent of a node, ready for it. -/
theorem Built.parent (h : Built c d₀ B P d) (hg : Ground k fs d₀ B T) (hP : P ⊆ T.nodes)
    {e : List String × Node} (he : e ∈ T.nodes) {q : List String} {n : String}
    (hq : e.1 = q ++ [n]) :
    ∃ dm, fs.ensure_parent k d (q ++ [n]) none = (dm, none) ∧ Laid d.tree B q dm.tree ∧
      dm.inode = d.inode ∧ dm.next = d.next ∧ k.stat dm.tree fs.root = some B ∧
        dm.tree.get (B ++ q) = some .dir := by
  have hx := h.extends hg hP
  have hb := Kernel.stat_extends hx hg.root
  obtain ⟨dm, hdm, hlaid, hinode, hnext⟩ := ensure_parent_below (n := n) hg.parents hb
    (hx _ _ hg.dir) (h.passable hg hP he hq)
  have hgrows := (AutoMkcolFs.ensure_parent_grows k fs d (q ++ [n]) none).1
  rw [hdm] at hgrows
  refine ⟨dm, hdm, hlaid, hinode, hnext, Kernel.stat_extends hgrows.extends hb, ?_⟩
  by_cases hq0 : q = []
  · rw [hq0, List.append_nil]
    exact hgrows.extends _ _ (hx _ _ hg.dir)
  · exact hlaid.made q hq0 (List.prefix_refl q)

/-- What is at a node is not touched by what is made above it. -/
theorem get_of_laid {t t' : FileTree Nat} {q : List String} {n : String} (h : Laid t B q t') :
    t'.get (B ++ (q ++ [n])) = t.get (B ++ (q ++ [n])) := by
  refine h.rest _ ?_
  intro s _ hsq heq
  have hlen := hsq.length_le
  rw [← List.append_cancel_left heq, List.length_append, List.length_singleton] at hlen
  omega

/-- An `MKCOL` of the tree. -/
theorem Built.mkcol (h : Built c d₀ B P d) (hg : Ground k fs d₀ B T) (hP : P ⊆ T.nodes)
    {path : List String} (hpath : (path, Node.dir) ∈ T.nodes) :
    ∃ d' answer, fs.create_dir k d path none none = (d', answer) ∧
      (answer = .ok () ∨
        (answer = .error .exists_ ∧ k.is_dir d.tree (fs.fspath path) = true)) ∧
      Built c d B [(path, .dir)] d' := by
  obtain ⟨q, n, rfl⟩ : ∃ q n, path = q ++ [n] := by
    rcases List.eq_nil_or_concat path with rfl | ⟨q, n, rfl⟩
    · exact absurd rfl (T.below _ hpath)
    · exact ⟨q, n, List.concat_eq_append⟩
  obtain ⟨dm, hdm, hlaid, hinode, hnext, hb, hq⟩ := h.parent hg hP hpath rfl
  simp only [AutoMkcolFs.create_dir, hdm]
  rcases h.dir_or_none hg hP hpath with hdir | hnone
  · -- made by an earlier request
    have hdir' : dm.tree.get (B ++ (q ++ [n])) = some .dir := by rw [get_of_laid hlaid, hdir]
    have his : k.is_dir dm.tree (fs.fspath (q ++ [n])) = true :=
      Kernel.is_dir_iff.mpr ⟨_, Kernel.stat_below hb hdir', hdir'⟩
    rw [Disk.create_dir_of_error (Kernel.mkdir_of_is_dir his)]
    refine ⟨dm, _, rfl, .inr ⟨rfl, ?_⟩, ?_⟩
    · have hb₀ := Kernel.stat_extends (h.extends hg hP) hg.root
      exact Kernel.is_dir_iff.mpr ⟨_, Kernel.stat_below hb₀ hdir, hdir⟩
    · exact built_one hlaid (fun _ _ => rfl) (Disk.image_dir.mpr hdir')
        (fun i _ => by rw [hinode]) (Nat.le_of_eq hnext.symm)
  · have hnone' : dm.tree.get (B ++ (q ++ [n])) = none := by rw [get_of_laid hlaid, hnone]
    obtain ⟨t, ht, hgt⟩ := Kernel.mkdir_below hb hq hnone'
    obtain ⟨d', hd', htree, hinode', hnext'⟩ := Disk.create_dir_of_ok ht
    rw [AutoMkcolFs.fspath, hd']
    refine ⟨d', _, rfl, .inl rfl, built_one hlaid ?_ ?_ ?_ ?_⟩
    · intro x hx
      rw [htree, hgt, if_neg hx]
    · rw [Disk.image_dir.mpr]
      · rfl
      · rw [htree, hgt, if_pos rfl]
    · intro i _
      rw [hinode', hinode]
    · rw [hnext', hnext]

/-- A `PUT` of the tree. -/
theorem Built.put (h : Built c d₀ B P d) (hg : Ground k fs d₀ B T) (hP : P ⊆ T.nodes)
    {path : List String} {options : OpenOptions} {fault : OpenFault}
    {calls : List AtomicFile.WriteCall} {commit : AtomicFile.CommitFault}
    (hsmooth : (Request.put path options fault calls commit).Smooth c)
    (hpath : (Request.put path options fault calls commit).node ∈ T.nodes)
    (hnew : (Request.put path options fault calls commit).node ∉ P) :
    ∃ d', fs.handle k c d (.put path options fault calls commit) = some (d', .ok ()) ∧
      Built c d B [(Request.put path options fault calls commit).node] d' := by
  obtain ⟨hwrite, hcreate, htrunc, hsize, hsum, hparent, hspace, htemp, hcalls, hsync, hrename⟩ :=
    hsmooth
  obtain ⟨q, n, rfl⟩ : ∃ q n, path = q ++ [n] := by
    rcases List.eq_nil_or_concat path with rfl | ⟨q, n, rfl⟩
    · exact absurd rfl (T.below _ hpath)
    · exact ⟨q, n, List.concat_eq_append⟩
  -- the directories above are there, and neither the name nor the temp name below them
  obtain ⟨dm, hdm, hlaid, hinode, hnext, hb, hq⟩ := h.parent hg hP hpath rfl
  have hn : dm.tree.get (B ++ (q ++ [n])) = none := by
    rw [get_of_laid hlaid]
    exact h.file_absent hg hP hpath hnew
  have htn : dm.tree.get (B ++ (q ++ [temp_name n])) = none := by
    rw [get_of_laid hlaid]
    exact h.unmarked hg hP (by simp) (marked_temp_name n)
  obtain ⟨d₁, hopen, hget₁, hinode₁, hnext₁⟩ :=
    open_atomic_below hb hq hn htn hspace htemp
  obtain ⟨d', hput, hget', hinode', hnext'⟩ := put_below fs.fsync hb hq hn htn hget₁ hinode₁ hnext₁
    hsize hsum hcalls hsync hrename
  refine ⟨d', ?_, built_one hlaid ?_ ?_ ?_ ?_⟩
  · have hop : fs.open_ k d (q ++ [n]) options fault =
        fs.open_atomic k dm (q ++ [n]) options fault := by
      simp only [AutoMkcolFs.open_, hwrite, hcreate, htrunc, hg.atomic, hparent, hdm, Bool.and_self,
        if_true]
    simp only [AutoMkcolFs.handle, hop, hopen, hput]
  · intro x hx
    rw [hget', if_neg hx]
  · rw [Disk.image, hget', if_pos rfl]
    simp only [hinode', if_true]
    rfl
  · intro i hi
    have hne : i ≠ dm.next := by omega
    rw [hinode', if_neg hne, hinode]
  · omega

/-- **One request** is answered as it should be and adds its node. -/
theorem Built.handle (h : Built c d₀ B P d) (hg : Ground k fs d₀ B T) {r : Request}
    (hsmooth : r.Smooth c) (hsub : P ++ [r.node] ⊆ T.nodes) (hnew : r.node ∉ P) :
    ∃ d' answer, fs.handle k c d r = some (d', answer) ∧ Answered k fs d r answer ∧
      Built c d₀ B (P ++ [r.node]) d' := by
  have hP : P ⊆ T.nodes := fun e he => hsub (List.mem_append_left _ he)
  have hr : r.node ∈ T.nodes := hsub (List.mem_append_right P (List.mem_singleton_self _))
  have hone : [r.node] ⊆ T.nodes := fun e he => hsub (List.mem_append_right P he)
  cases r with
  | mkcol path parent fault =>
    obtain ⟨rfl, rfl⟩ := hsmooth
    obtain ⟨d', answer, hd', hanswer, hbuilt⟩ := h.mkcol hg hP hr
    exact ⟨d', answer, congrArg some hd', hanswer, h.trans hbuilt hP hone⟩
  | put path options fault calls commit =>
    obtain ⟨d', hd', hbuilt⟩ := h.put hg hP hsmooth hr hnew
    exact ⟨d', .ok (), hd', rfl, h.trans hbuilt hP hone⟩

/-- **A run of requests** builds their nodes. -/
theorem built_of_run (c : Crates) (hg : Ground k fs d₀ B T) {rs : List Request}
    (hsmooth : ∀ r ∈ rs, r.Smooth c) (hsub : rs.map Request.node ⊆ T.nodes)
    (hnodup : (rs.map Request.node).Nodup) :
    ∃ d, exec (fs.serve k c) d₀ rs = some d ∧ Built c d₀ B (rs.map Request.node) d := by
  induction rs using List.reverseRecOn with
  | nil => exact ⟨d₀, rfl, built_start c d₀ B⟩
  | append_singleton rs r ih =>
    rw [List.map_append, List.map_singleton] at hsub hnodup ⊢
    obtain ⟨d, hd, hbuilt⟩ := ih (fun x hx => hsmooth x (List.mem_append_left _ hx))
      (fun e he => hsub (List.mem_append_left _ he)) (List.nodup_append.mp hnodup).1
    have hnew : r.node ∉ rs.map Request.node := by
      intro hmem
      exact (List.nodup_append.mp hnodup).2.2 _ hmem _ (List.mem_singleton_self _) rfl
    obtain ⟨d', answer, hd', -, hbuilt'⟩ := hbuilt.handle hg
      (hsmooth r (List.mem_append_right _ (List.mem_singleton_self r))) hsub hnew
    refine ⟨d', ?_, hbuilt'⟩
    rw [exec_append, hd]
    simp only [Option.bind_some, exec, AutoMkcolFs.serve, hd', Option.map_some]

/-- What a finished tree looks like. -/
theorem Built.finished (h : Built c d₀ B P d) (hP : P.Perm T.nodes) :
    (∀ e ∈ T.nodes, d.image (B ++ e.1) = some (e.2.entry c)) ∧
      ∀ x, (∀ e ∈ T.nodes, x ≠ B ++ e.1) → d.image x = d₀.image x := by
  refine ⟨fun e he => h.there e (hP.mem_iff.mpr he), ?_⟩
  intro x hx
  refine Disk.image_congr (h.rest x ?_) fun i hi => h.inode i (d₀.fresh hi)
  intro e he s hs hse
  rcases T.on_the_way (hP.mem_iff.mp he) hs hse with hd | rfl
  · exact hx _ hd
  · exact hx e (hP.mem_iff.mp he)

end Building

/-- **Recursive uploads in any order.** The requests for a tree, one after
another in whatever order, are all answered as they should be; then the tree is
there, every file with its whole body and its digest, nothing else has changed,
no temp file is left, and every other order ends the same. -/
theorem uploads_any_order (k : Kernel) (c : Crates) (fs : AutoMkcolFs) (d : Disk) (B : Loc)
    (T : Tree) (hg : Ground k fs d B T) (rs : List Request)
    (hrs : (rs.map Request.node).Perm T.nodes) (hsmooth : ∀ r ∈ rs, r.Smooth c) :
    (∀ before r after, rs = before ++ r :: after → ∃ d₁ d₂ answer,
        exec (fs.serve k c) d before = some d₁ ∧ fs.handle k c d₁ r = some (d₂, answer) ∧
          Answered k fs d₁ r answer) ∧
      ∃ d', exec (fs.serve k c) d rs = some d' ∧
        (∀ e ∈ T.nodes, d'.image (B ++ e.1) = some (e.2.entry c)) ∧
        (∀ x, (∀ e ∈ T.nodes, x ≠ B ++ e.1) → d'.image x = d.image x) ∧
        (∀ r n, n ∈ r → Marked n → d'.image (B ++ r) = none) ∧
        ∀ rs', (rs'.map Request.node).Perm T.nodes → (∀ r ∈ rs', r.Smooth c) →
          ∃ d'', exec (fs.serve k c) d rs' = some d'' ∧ d''.image = d'.image := by
  have hnodes : T.nodes.Nodup := List.Nodup.of_map Prod.fst T.nodup
  have hrun : ∀ rs' : List Request, (rs'.map Request.node).Perm T.nodes → (∀ r ∈ rs', r.Smooth c) →
      ∃ d', exec (fs.serve k c) d rs' = some d' ∧ Built c d B (rs'.map Request.node) d' := by
    intro rs' hrs' hsm
    exact built_of_run c hg hsm (fun e he => hrs'.mem_iff.mp he) (hrs'.nodup_iff.mpr hnodes)
  refine ⟨?_, ?_⟩
  · rintro before r after rfl
    have hnodup := hrs.nodup_iff.mpr hnodes
    have hsub : (before ++ r :: after).map Request.node ⊆ T.nodes := fun e he => hrs.mem_iff.mp he
    rw [List.map_append, List.map_cons] at hnodup hsub
    obtain ⟨d₁, hd₁, hbuilt⟩ := built_of_run c hg
      (fun x (hx : x ∈ before) => hsmooth x (List.mem_append_left _ hx))
      (fun e he => hsub (List.mem_append_left _ he)) (List.nodup_append.mp hnodup).1
    -- this node is not among those that are there already
    have hnew : r.node ∉ before.map Request.node := by
      intro hmem
      exact (List.nodup_append.mp hnodup).2.2 _ hmem _ List.mem_cons_self rfl
    obtain ⟨d₂, answer, hd₂, hanswer, -⟩ := hbuilt.handle hg
      (hsmooth r (List.mem_append_right _ List.mem_cons_self)) (by
        intro e he
        rcases List.mem_append.mp he with he | he
        · exact hsub (List.mem_append_left _ he)
        · rw [List.mem_singleton.mp he]
          exact hsub (List.mem_append_right _ List.mem_cons_self)) hnew
    exact ⟨d₁, d₂, answer, hd₁, hd₂, hanswer⟩
  · obtain ⟨d', hd', hbuilt⟩ := hrun rs hrs hsmooth
    obtain ⟨hthere, hrest⟩ := hbuilt.finished hrs
    refine ⟨d', hd', hthere, hrest, ?_, ?_⟩
    · intro r n hn hm
      rw [Disk.image, hbuilt.unmarked hg (fun e he => hrs.mem_iff.mp he) hn hm]
    · intro rs' hrs' hsm
      obtain ⟨d'', hd'', hbuilt'⟩ := hrun rs' hrs' hsm
      obtain ⟨hthere', hrest'⟩ := hbuilt'.finished hrs'
      refine ⟨d'', hd'', ?_⟩
      funext x
      -- both ends have the tree where it should be and the first disk elsewhere
      by_cases hx : ∃ e ∈ T.nodes, x = B ++ e.1
      · obtain ⟨e, he, rfl⟩ := hx
        rw [hthere e he, hthere' e he]
      · have hno : ∀ e ∈ T.nodes, x ≠ B ++ e.1 := fun e he heq => hx ⟨e, he, heq⟩
        rw [hrest x hno, hrest' x hno]

/-- A directory `a` with a file `b` in it. -/
def small : Tree where
  nodes := [(["a"], .dir), (["a", "b"], .file [1])]
  nodup := by decide
  below := by simp
  closed := by
    intro e he s hs hse hne
    simp only [List.mem_cons, List.not_mem_nil, or_false] at he
    rcases he with rfl | rfl
    · exact absurd ((List.prefix_concat_iff.mp (show s <+: [] ++ ["a"] from hse)).resolve_left hne)
        (by simpa using hs)
    · rcases (List.prefix_concat_iff.mp (show s <+: ["a"] ++ ["b"] from hse)).resolve_left hne with h
      rcases List.prefix_concat_iff.mp (show s <+: [] ++ ["a"] from h) with rfl | h
      · simp
      · exact absurd h (by simpa using hs)

theorem ground_small : Ground host serving .blank [] small where
  parents := rfl
  atomic := rfl
  root := by decide
  dir := by decide
  absent := by decide
  unmarked := by
    have hfree : ∀ e ∈ [["a"], ["a", "b"]], ∀ n ∈ e,
        ¬ ".uploading.nzk_webdavs".toList <:+: n.toList := by decide
    intro e he n hn
    exact hfree e.1 (List.mem_map_of_mem (f := Prod.fst) he) n hn
  clean := by
    intro r hr n hn
    cases r with
    | nil => cases hn
    | cons m r => exact absurd rfl hr

/-- The file comes before its directory. -/
theorem uploads_any_order_small : ∃ d', exec (serving.serve host digests) .blank
      [.put ["a", "b"] (putting none) unhindered [.bytes [1] none] ⟨none, none⟩,
        .mkcol ["a"] none none] = some d' ∧
    d'.image ["a", "b"] = some (.file ⟨[1], some (digests.hex_encode (digests.sha256 [1]))⟩) := by
  have hrun := (uploads_any_order host digests serving .blank [] small ground_small
    [.put ["a", "b"] (putting none) unhindered [.bytes [1] none] ⟨none, none⟩,
      .mkcol ["a"] none none] (List.Perm.swap _ _ _) (by
        intro r hr
        simp only [List.mem_cons, List.not_mem_nil, or_false] at hr
        rcases hr with rfl | rfl
        · simp [Request.Smooth, putting, unhindered, AutoMkcolFs.lacks_space,
            AtomicFile.WriteCall.Smooth]
        · exact ⟨rfl, rfl⟩)).2
  obtain ⟨d', hd', hthere, -⟩ := hrun
  exact ⟨d', hd', hthere (["a", "b"], .file [1]) (by simp [small])⟩

end WebDavs.AutoFs
