/-
`list_entries`, of the mover and of its helper, where names are bytes.

A directory holds names that are any bytes; the listing turns each into text, sorts
the texts, and looks each text up again. A name that is UTF-8 finds its own entry in
that way, and no other name does.
-/
import Mathlib.Data.List.Perm.Basic
import Mathlib.Data.String.Basic
import WebDavs.Credentials
import WebDavs.Posix.Calls
import WebDavs.Utf8

set_option autoImplicit false

namespace WebDavs.Listing

open Posix (Bytes Errno)
open WebDavs.Utf8

/-! ## A directory -/

/-- `std::fs::FileType`, as far as a listing asks. -/
inductive FileType where
  | dir
  | file
  | symlink
  | other
deriving DecidableEq, Repr

/-- `std::fs::Metadata`, as `lstat` fills it in. `modified` is in nanoseconds since the
epoch. -/
structure Metadata where
  file_type : FileType
  len : Nat
  modified : Option Int
deriving DecidableEq, Repr

/-- What an entry may be called: not empty, no `/` and no NUL in it. -/
def Proper (name : Bytes) : Prop := name ≠ [] ∧ ∀ b ∈ name, b.toNat ≠ 0x2F ∧ b.toNat ≠ 0

/-- A directory, its entries in the order they are read. A lookup may be hindered though
the name is there: by a directory that may be read but not searched, or by a path that
gets too long. -/
structure Directory where
  entries : List (Bytes × Metadata)
  nodup : (entries.map Prod.fst).Nodup
  proper : ∀ e ∈ entries, Proper e.1
  hindered : Bytes → Bool

/-- The entry that a look-up of a name gives. -/
def Directory.find (d : Directory) (name : Bytes) : Option (Bytes × Metadata) :=
  if d.hindered name then none else d.entries.find? fun e => e.1 = name

/-- `std::fs::symlink_metadata` of a name in the directory. -/
def Directory.symlink_metadata (d : Directory) (name : Bytes) : Option Metadata :=
  (d.find name).map Prod.snd

/-! ## `list_entries` -/

/-- One record of a listing. -/
structure Record where
  name : String
  is_dir : Bool
  size : Nat
  mtime : Nat
  link : Bool
deriving DecidableEq, Repr

/-- `OsStr::to_string_lossy`. -/
def to_string_lossy (name : Bytes) : String := String.ofList (lossy name)

/-- The record of one entry. -/
def record (mtime : Metadata → Nat) (name : String) (md : Metadata) : Record where
  name := name
  is_dir := md.file_type = .dir
  size := if md.file_type = .dir then 0 else md.len
  mtime := mtime md
  link := md.file_type = .symlink

/-- The loop over the names. -/
def records (mtime : Metadata → Nat) (d : Directory) (names : List String) : List Record :=
  names.filterMap fun name => (d.symlink_metadata (as_bytes name)).map (record mtime name)

/-- The names, sorted. -/
def sorted_names (d : Directory) : List String :=
  (d.entries.map fun e => to_string_lossy e.1).mergeSort fun a b => decide (a ≤ b)

/-- `list_entries`, with the time of change that it writes. -/
def list_entries_with (mtime : Metadata → Nat) (dir : Except Errno Directory) :
    Except Errno (List Record) :=
  dir.map fun d => records mtime d (sorted_names d)

/-- The seconds since the epoch; 0 before it, or if the time is not known. -/
def as_secs (md : Metadata) : Nat :=
  match md.modified with
  | some t => if 0 ≤ t then t.toNat / 1000000000 else 0
  | none => 0

/-- `list_entries` of the mover. -/
def list_entries : Except Errno Directory → Except Errno (List Record) := list_entries_with as_secs

namespace Helper

/-- `list_entries` of the helper. -/
def list_entries : Except Errno Directory → Except Errno (List Record) :=
  list_entries_with fun _ => 0

end Helper

/-! ## What a listing is for -/

/-- The records of the loop, each with the entry that its look-up gave. -/
def found (mtime : Metadata → Nat) (d : Directory) (names : List String) :
    List ((Bytes × Metadata) × Record) :=
  names.filterMap fun name =>
    (d.find (as_bytes name)).map fun e => (e, record mtime name e.2)

/-- A record has the values of an entry. -/
def Carries (e : Bytes × Metadata) (r : Record) : Prop :=
  r.is_dir = decide (e.2.file_type = .dir) ∧
    r.size = (if e.2.file_type = .dir then 0 else e.2.len) ∧
      r.link = decide (e.2.file_type = .symlink)

/-- **Every entry once**: the records that were made are of all the entries, each of one
of its own with the values of that one, and in the order of the names. -/
structure Lists (d : Directory) (rs : List ((Bytes × Metadata) × Record)) : Prop where
  each : (rs.map Prod.fst).Perm d.entries
  own : ∀ x ∈ rs, Carries x.1 x.2
  sorted : (rs.map Prod.snd).Pairwise fun a b => a.name ≤ b.name

/-- The name of an entry is UTF-8, and it can be looked up. -/
def Plain (d : Directory) (e : Bytes × Metadata) : Prop :=
  (∃ s : String, as_bytes s = e.1) ∧ d.hindered e.1 = false

/-! ## Names -/

end WebDavs.Listing
