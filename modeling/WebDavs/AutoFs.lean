/-
`src/autofs.rs`: the file system behind the WebDAV server.

`AutoMkcolFs::open` makes missing parents and, for a `PUT` with the atomic-write
setting on, hands out an `AtomicFile`: the body goes into a temp file next to the
target and `commit` renames it into place. The definitions follow the source
function by function and keep its names.

A directory entry holds an inode number and the contents live in a table beside
the tree, because that is what the code depends on: an open handle goes on
writing to its inode after the name it was opened under has been renamed,
replaced or unlinked.

Failures the tree does not force -- a full disk, an I/O error, a failed `fsync`
-- are arguments, chosen by the environment call by call. The digest and the two
decoders come from crates and are arguments too.
-/
import WebDavs.Posix.Effects

set_option autoImplicit false

namespace WebDavs.AutoFs

open WebDavs.Posix

/-! ## The disk -/

/-- What a regular file is: its bytes, and the value of its
`user.nzk_webdavs.sha256` attribute. -/
structure Inode where
  content : Bytes
  sha256 : Option String
deriving DecidableEq

/-- A tree of inode numbers and the table they point into. Numbers from `next`
on are unused. -/
structure Disk where
  tree : FileTree Nat
  inode : Nat → Inode
  next : Nat
  fresh : ∀ {l : Loc} {i : Nat}, tree.get l = some (.file i) → i < next

/-- An open file: its inode and the offset of the next write. -/
structure Handle where
  ino : Nat
  pos : Nat
deriving DecidableEq

namespace Disk

/-- `create_dir_all`, stopped after `n` components by an error `e` when the
environment says so. -/
def create_dir_all (k : Kernel) (d : Disk) (p : Path) (fault : Option (Errno × Nat)) :
    Disk × Option Errno :=
  let q : Path := match fault with
    | none => p
    | some (_, n) => ⟨p.root, p.comps.take n⟩
  let r := k.create_dir_all d.tree q
  ({ d with
      tree := r.1
      fresh := fun h =>
        d.fresh ((k.create_dir_all_grows d.tree q).get_of_not_dir h (by simp)) },
    match fault with
    | none => r.2
    | some (e, _) => some e)

/-- `mkdir`, refused with `e` when the environment says so. -/
def create_dir (k : Kernel) (d : Disk) (p : Path) (fault : Option Errno) : Except Errno Disk :=
  match fault with
  | some e => .error e
  | none =>
    match h : k.mkdir d.tree p with
    | .error e => .error e
    | .ok t =>
      .ok { d with
        tree := t
        fresh := fun hl => d.fresh ((Kernel.mkdir_grows h).get_of_not_dir hl (by simp)) }

/-- `open` with `create_new`: an empty file under a new inode number. -/
def create_new (k : Kernel) (d : Disk) (p : Path) : Except Errno (Disk × Handle) :=
  match h : k.create_new d.tree p d.next with
  | .error e => .error e
  | .ok t =>
    .ok ({ tree := t
           inode := fun i => if i = d.next then ⟨[], none⟩ else d.inode i
           next := d.next + 1
           fresh := by
             intro l i hl
             obtain ⟨dl, n, -, -, -, hg⟩ := Kernel.create_new_spec h
             rw [hg] at hl
             split at hl
             · cases hl
               exact Nat.lt_succ_self _
             · exact Nat.lt_succ_of_lt (d.fresh hl) }, ⟨d.next, 0⟩)

/-- `rename`, refused with `e` when the environment says so. -/
def rename (k : Kernel) (d : Disk) (p q : Path) (fault : Option Errno) : Except Errno Disk :=
  match fault with
  | some e => .error e
  | none =>
    match h : k.rename d.tree p q with
    | .error e => .error e
    | .ok t =>
      .ok { d with
        tree := t
        fresh := by
          intro l i hl
          obtain ⟨_, _, _, _, _, -, -, -, -, -, hcase⟩ := Kernel.rename_spec h
          rcases hcase with ⟨-, rfl⟩ | ⟨-, -, -, -, hg⟩
          · exact d.fresh hl
          · rw [hg] at hl
            split at hl
            · exact d.fresh hl
            · split at hl
              · cases hl
              · exact d.fresh hl }

/-- `remove_file`. -/
def remove_file (k : Kernel) (d : Disk) (p : Path) : Except Errno Disk :=
  match h : k.remove_file d.tree p with
  | .error e => .error e
  | .ok t =>
    .ok { d with
      tree := t
      fresh := by
        intro l i hl
        obtain ⟨_, _, _, -, -, -, hg⟩ := Kernel.remove_file_spec h
        rw [hg] at hl
        split at hl
        · cases hl
        · exact d.fresh hl }

/-- Write `bs` through an open handle. -/
def write_at (d : Disk) (h : Handle) (bs : Bytes) : Disk × Handle :=
  ({ d with
      inode := fun i =>
        if i = h.ino then { d.inode i with content := splice (d.inode i).content h.pos bs }
        else d.inode i },
    { h with pos := h.pos + bs.length })

/-- What a reader of the path `p` gets: nothing, a directory, or a file's
bytes. -/
def view (k : Kernel) (d : Disk) (p : Path) : Option (Option Bytes) :=
  match k.stat d.tree p with
  | none => none
  | some l =>
    match d.tree.get l with
    | some (.file i) => some (some (d.inode i).content)
    | _ => some none

end Disk

/-! ## `parse_sha256_checksum` -/

/-- What the crates `sha2`, `hex` and `base64` provide. -/
structure Crates where
  sha256 : Bytes → Bytes
  hex_encode : Bytes → String
  hex_decode : String → Option Bytes
  base64_decode : String → Option Bytes

/-- `char::is_whitespace`. -/
def is_whitespace (c : Char) : Bool :=
  (9 ≤ c.toNat && c.toNat ≤ 13) || (0x2000 ≤ c.toNat && c.toNat ≤ 0x200A) ||
    [0x20, 0x85, 0xA0, 0x1680, 0x2028, 0x2029, 0x202F, 0x205F, 0x3000].contains c.toNat

/-- `str::trim`. -/
def trim (cs : List Char) : List Char :=
  ((cs.dropWhile is_whitespace).reverse.dropWhile is_whitespace).reverse

/-- `str::split_once`. -/
def split_once (c : Char) (cs : List Char) : Option (List Char × List Char) :=
  match cs.dropWhile (· ≠ c) with
  | [] => none
  | _ :: after => some (cs.takeWhile (· ≠ c), after)

/-- `str::eq_ignore_ascii_case`. -/
def eq_ignore_ascii_case (a b : List Char) : Bool := a.map Char.toLower = b.map Char.toLower

/-- `parse_sha256_checksum`: hexadecimal first, then base64; nothing for another
algorithm. -/
def parse_sha256_checksum (c : Crates) (raw : String) : Option Bytes :=
  match split_once ':' (trim raw.toList) with
  | none => none
  | some (alg, val) =>
    if eq_ignore_ascii_case alg "sha256".toList then
      let val := String.ofList (trim val)
      match c.hex_decode val with
      | some bytes => some bytes
      | none => c.base64_decode val
    else none

/-! ## `create_temp` -/

/-- `dav_server::fs::FsError`, as far as this file returns it. -/
inductive FsError where
  | general_failure
  | exists_
  | forbidden
  | insufficient_storage
  | io (e : Errno)
deriving DecidableEq, Repr

/-- The sixteen names `create_temp` tries for `target`, in order. -/
def temp_paths (dir target : Path) : List Path :=
  let name := target.file_name.getD "file"
  (List.range 16).map fun i =>
    if i = 0 then dir.child (name ++ ".uploading.nzk_webdavs")
    else dir.child (name ++ ".uploading.nzk_webdavs." ++ toString i)

/-- The loop of `create_temp`: the first name that is not taken. -/
def create_temp_from (k : Kernel) (d : Disk) (fault : Path → Option Errno) :
    List Path → Except FsError (Disk × Path × Handle)
  | [] => .error .exists_
  | temp :: temps =>
    match fault temp with
    | some e => .error (.io e)
    | none =>
      match d.create_new k temp with
      | .ok (d', f) => .ok (d', temp, f)
      | .error .eexist => create_temp_from k d fault temps
      | .error e => .error (.io e)

/-- `create_temp`. -/
def create_temp (k : Kernel) (d : Disk) (dir target : Path) (fault : Path → Option Errno) :
    Except FsError (Disk × Path × Handle) :=
  create_temp_from k d fault (temp_paths dir target)

/-! ## `AtomicFile` -/

/-- `struct AtomicFile`. The hasher is the bytes it has been fed. -/
structure AtomicFile where
  file : Option Handle
  temp_path : Path
  target_path : Path
  expected_size : Option Nat
  written : Nat
  committed : Bool
  fsync : Bool
  hasher : Bytes
  expected_checksum : Option String

namespace AtomicFile

/-- `AtomicFile::new`. -/
def new (temp_path target_path : Path) (expected_size : Option Nat)
    (expected_checksum : Option String) (file : Handle) (fsync : Bool) : AtomicFile where
  file := some file
  temp_path := temp_path
  target_path := target_path
  expected_size := expected_size
  written := 0
  committed := false
  fsync := fsync
  hasher := []
  expected_checksum := expected_checksum

/-- How a `write_all` ends: everything written, or an error after `n` bytes. -/
abbrev WriteFault := Option (Errno × Nat)

/-- `DavFile::write_bytes`. The hasher is fed before the write and the counter
grows by the whole length, whatever reached the file. -/
def write_bytes (af : AtomicFile) (d : Disk) (buf : Bytes) (fault : WriteFault) :
    AtomicFile × Disk × Except FsError Unit :=
  let af := { af with hasher := af.hasher ++ buf }
  match af.file with
  | none => (af, d, .error .general_failure)
  | some f =>
    match fault with
    | none =>
      let (d, f) := d.write_at f buf
      ({ af with file := some f, written := af.written + buf.length }, d, .ok ())
    | some (e, n) =>
      let (d, f) := d.write_at f (buf.take n)
      ({ af with file := some f, written := af.written + buf.length }, d, .error (.io e))

/-- How the `write` calls of one `write_buf` end, in order: so many bytes
accepted (at most the chunk), or an error. Past the end of the list a call
accepts its whole chunk. -/
abbrev WriteSched := List (Except Errno Nat)

/-- The loop of `write_buf`, on a buffer given by its chunks. -/
def write_buf_loop (d : Disk) (f : Handle) (hasher : Bytes) :
    WriteSched → List Bytes → Disk × Handle × Bytes × Except FsError Unit
  | [], chunks =>
    let (d, f) := d.write_at f chunks.flatten
    (d, f, hasher ++ chunks.flatten, .ok ())
  | r :: sched, chunks =>
    match chunks.dropWhile List.isEmpty with
    | [] => (d, f, hasher, .ok ())
    | chunk :: rest =>
      match r with
      | .error e => (d, f, hasher, .error (.io e))
      | .ok n =>
        if n = 0 then (d, f, hasher, .error (.io .eio))
        else
          let (d, f) := d.write_at f (chunk.take n)
          write_buf_loop d f (hasher ++ chunk.take n) sched (chunk.drop n :: rest)

/-- `DavFile::write_buf`. -/
def write_buf (af : AtomicFile) (d : Disk) (chunks : List Bytes) (sched : WriteSched) :
    AtomicFile × Disk × Except FsError Unit :=
  match af.file with
  | none => (af, d, .error .general_failure)
  | some f =>
    let (d, f, hasher, res) := write_buf_loop d f af.hasher sched chunks
    ({ af with
        file := some f, hasher := hasher, written := af.written + chunks.flatten.length }, d, res)

/-- What the environment does to one `commit`: an error from `sync_data`, an
error from `rename`. -/
structure CommitFault where
  sync : Option Errno
  rename : Option Errno

/-- `set_xattr_sha256`: on the file the path leads to, if any. -/
def set_xattr_sha256 (k : Kernel) (d : Disk) (p : Path) (sha_hex : String) : Disk :=
  match k.read d.tree p with
  | none => d
  | some i => { d with inode := fun j =>
      if j = i then { d.inode j with sha256 := some sha_hex } else d.inode j }

/-- The size test of `commit`: the whole body arrived, or its length was
unknown. -/
def should_commit (af : AtomicFile) : Bool :=
  match af.expected_size with
  | none => true
  | some s => af.written = s

/-- The checksum test of `commit`: a parsed `OC-Checksum` that is not the digest
of what was hashed. -/
def checksum_mismatch (c : Crates) (af : AtomicFile) : Bool :=
  match af.expected_checksum.bind (parse_sha256_checksum c) with
  | none => false
  | some expected => expected ≠ c.sha256 af.hasher

/-- `AtomicFile::commit`. -/
def commit (k : Kernel) (c : Crates) (af : AtomicFile) (d : Disk) (fault : CommitFault) :
    AtomicFile × Disk × Except FsError Unit :=
  if af.committed then (af, d, .ok ())
  else if af.checksum_mismatch c then (af, d, .error .general_failure)
  else
    let file := af.file
    let af := { af with file := none }
    let synced : Option Errno := if af.fsync && file.isSome then fault.sync else none
    match synced with
    | some e => (af, d, .error (.io e))
    | none =>
      if af.should_commit then
        match d.rename k af.temp_path af.target_path fault.rename with
        | .error e => (af, d, .error (.io e))
        | .ok d =>
          ({ af with committed := true },
            set_xattr_sha256 k d af.target_path (c.hex_encode (c.sha256 af.hasher)), .ok ())
      else (af, d, .ok ())

/-- `DavFile::flush`. -/
def flush (k : Kernel) (c : Crates) (af : AtomicFile) (d : Disk) (fault : CommitFault) :
    AtomicFile × Disk × Except FsError Unit := af.commit k c d fault

/-- `DavFile::metadata`: commit as a fallback, then look at the file, of which
the length is kept here. -/
def metadata (k : Kernel) (c : Crates) (af : AtomicFile) (d : Disk) (fault : CommitFault) :
    AtomicFile × Disk × Except FsError Nat :=
  match af.commit k c d fault with
  | (af, d, .error e) => (af, d, .error e)
  | (af, d, .ok ()) =>
    let p := if af.committed then af.target_path else af.temp_path
    match d.view k p with
    | none => (af, d, .error (.io (k.why d.tree p)))
    | some v => (af, d, .ok (v.getD []).length)

/-- `Drop for AtomicFile`: an upload that never committed takes its temp file
away. -/
def drop (k : Kernel) (af : AtomicFile) (d : Disk) : Disk :=
  if af.committed then d
  else
    match d.remove_file k af.temp_path with
    | .ok d => d
    | .error _ => d

end AtomicFile

/-! ## `AutoMkcolFs` -/

/-- `struct AutoMkcolFs`, less the `LocalFs` it wraps. -/
structure AutoMkcolFs where
  root : Path
  create_parents : Bool
  atomic_writes : Bool
  fsync : Bool

/-- The fields of `OpenOptions` that `open` reads. -/
structure OpenOptions where
  write : Bool
  create : Bool
  create_new : Bool
  truncate : Bool
  size : Option Nat
  checksum : Option String

/-- What the environment does to one `open`: an error in `create_dir_all` after
some components, what `statvfs` reports, errors on temp names. -/
structure OpenFault where
  parent : Option (Errno × Nat)
  free_space : Option Nat
  temp : Path → Option Errno

/-- What `open` hands out: its own file, or whatever `LocalFs` opens. -/
inductive Opened where
  | atomic (af : AtomicFile)
  | inner

namespace AutoMkcolFs

/-- `AutoMkcolFs::fspath`; a `DavPath` is a list of names. -/
def fspath (fs : AutoMkcolFs) (path : List String) : Path := fs.root.down path

/-- `AutoMkcolFs::ensure_parent`. -/
def ensure_parent (k : Kernel) (fs : AutoMkcolFs) (d : Disk) (path : List String)
    (fault : Option (Errno × Nat)) : Disk × Option FsError :=
  if !fs.create_parents then (d, none)
  else
    let p := fs.root.down path.dropLast
    if p ≠ fs.root then
      let r := d.create_dir_all k p fault
      (r.1, r.2.map .io)
    else (d, none)

/-- The check that answers 507: a known size that does not fit, when `statvfs`
says how much does. -/
def lacks_space : Option Nat → Option Nat → Bool
  | some size, some free => free < size
  | _, _ => false

/-- The atomic branch of `open`, once parents are in place. -/
def open_atomic (k : Kernel) (fs : AutoMkcolFs) (d : Disk) (path : List String)
    (options : OpenOptions) (fault : OpenFault) : Disk × Except FsError Opened :=
  let target := fs.fspath path
  if options.create_new && k.exists_ d.tree target then (d, .error .exists_)
  else if k.is_dir d.tree target then (d, .error .forbidden)
  else
    let dir := target.parent.getD fs.root
    if lacks_space options.size fault.free_space then (d, .error .insufficient_storage)
    else
      match create_temp k d dir target fault.temp with
      | .error e => (d, .error e)
      | .ok (d, temp, file) =>
        (d, .ok (.atomic (.new temp target options.size options.checksum file fs.fsync)))

/-- `AutoMkcolFs::open`. Where it defers to `LocalFs` the disk is the one
`LocalFs` starts from. -/
def open_ (k : Kernel) (fs : AutoMkcolFs) (d : Disk) (path : List String)
    (options : OpenOptions) (fault : OpenFault) : Disk × Except FsError Opened :=
  let r := if options.write && options.create then fs.ensure_parent k d path fault.parent
    else (d, none)
  match r with
  | (d, some e) => (d, .error e)
  | (d, none) =>
    if fs.atomic_writes && options.write && options.create && options.truncate then
      fs.open_atomic k d path options fault
    else (d, .ok .inner)

/-- `AutoMkcolFs::create_dir`: parents first, then the `mkdir` of `LocalFs`. -/
def create_dir (k : Kernel) (fs : AutoMkcolFs) (d : Disk) (path : List String)
    (parent : Option (Errno × Nat)) (fault : Option Errno) : Disk × Except FsError Unit :=
  match fs.ensure_parent k d path parent with
  | (d, some e) => (d, .error e)
  | (d, none) =>
    match d.create_dir k (fs.fspath path) fault with
    | .ok d => (d, .ok ())
    | .error .eexist => (d, .error .exists_)
    | .error e => (d, .error (.io e))

end AutoMkcolFs

end WebDavs.AutoFs
