/-
`src/tls.rs`: where the certificate and the key may lie.

`guard_certs_outside_root` runs before anything is served or generated. It
compares canonical paths, and what it cannot canonicalise, the file or else its
directory, it compares as it is spelled. Two questions follow. What it lets
pass, does `generate_self_signed` write it outside the root? And is what lies
outside the root out of reach for the clients? The first depends on what the
guard could canonicalise (`generate_outside_iff`), the second on the links below
the root (`key_unreachable_iff`).
-/
import WebDavs.AutoFs
import WebDavs.Config
import WebDavs.Posix.Lasting

set_option autoImplicit false

namespace WebDavs.Tls

open WebDavs.Posix
open WebDavs.Posix.FileTree
open WebDavs.Mover (PathBuf)
open WebDavs.AutoFs (AutoMkcolFs)

variable {α : Type}

/-! ## `guard_certs_outside_root` -/

/-- What the guard compares with the root: the canonical file, or its canonical
directory, or the path as given. -/
def canon (k : Kernel) (t : FileTree α) (p : Path) : Path :=
  match k.canonicalize t p with
  | some c => c
  | none =>
    match p.parent.bind (k.canonicalize t) with
    | some c => c
    | none => p

/-- `display` of a canonical path. -/
def display (p : Path) : String :=
  let names := p.comps.map fun c =>
    match c with
    | .curDir => "."
    | .parentDir => ".."
    | .normal n => n
  (if p.root then "/" else "") ++ String.intercalate "/" names

/-- `guard_certs_outside_root`. -/
def guard_certs_outside_root (k : Kernel) (t : FileTree α) (cfg : Config) :
    Except String Unit :=
  if cfg.no_tls then .ok ()
  else
    match k.canonicalize t cfg.root.path with
    | none => .error ("resolve WebDAV root " ++ cfg.root.text)
    | some root =>
      match [("certificate", cfg.cert), ("private key", cfg.key)].find? fun c =>
        (canon k t c.2.path).starts_with root with
      | some (kind, path) =>
        .error ("TLS " ++ kind ++ " at " ++ path.text ++ " resolves inside the WebDAV root "
          ++ display root ++ " and would be served to clients. Move it outside the root (e.g. "
          ++ "/etc/nzk-webdavs/) and update NZK_WEBDAVS_CERT / NZK_WEBDAVS_KEY.")
      | none => .ok ()

/-- What the guard has seen when it lets a configuration pass. -/
theorem guard_ok {k : Kernel} {t : FileTree α} {cfg : Config} (hn : cfg.no_tls = false)
    (h : guard_certs_outside_root k t cfg = .ok ()) :
    ∃ r, k.stat t cfg.root.path = some r ∧
      k.canonicalize t cfg.root.path = some (Path.abs r) ∧
      ∀ p ∈ [cfg.cert, cfg.key], (canon k t p.path).starts_with (Path.abs r) = false := by
  unfold guard_certs_outside_root at h
  rw [hn] at h
  cases hc : k.canonicalize t cfg.root.path with
  | none =>
    rw [hc] at h
    cases h
  | some root =>
    rw [hc] at h
    have hr : ∃ r, k.stat t cfg.root.path = some r ∧ root = Path.abs r := by
      unfold Kernel.canonicalize at hc
      split at hc
      · cases hc
      · obtain ⟨r, hr, he⟩ := Option.map_eq_some_iff.mp hc
        exact ⟨r, hr, he.symm⟩
    obtain ⟨r, hr, rfl⟩ := hr
    refine ⟨r, hr, rfl, ?_⟩
    cases hf : [("certificate", cfg.cert), ("private key", cfg.key)].find? fun c =>
        (canon k t c.2.path).starts_with (Path.abs r) with
    | some c =>
      simp only [Bool.false_eq_true, if_false, hf] at h
      cases h
    | none =>
      have hall := List.find?_eq_none.mp hf
      intro p hp
      rw [List.mem_cons, List.mem_singleton] at hp
      rcases hp with rfl | rfl
      · exact Bool.eq_false_iff.mpr (hall ("certificate", cfg.cert) List.mem_cons_self)
      · exact Bool.eq_false_iff.mpr
          (hall ("private key", cfg.key) (List.mem_cons_of_mem _ List.mem_cons_self))

/-! ## `generate_self_signed` -/

/-- `create_dir_all` of the parent, if there is one. -/
def create_parent (k : Kernel) (t : FileTree Bytes) (p : Path) : FileTree Bytes × Option Errno :=
  match p.parent with
  | some d => k.create_dir_all t d
  | none => (t, none)

/-- The host names `generate_self_signed` asks a certificate for. -/
def sans (cfg : Config) : List String :=
  ((cfg.cert_san.toList.splitOn ',').map fun s => String.ofList (AutoFs.trim s)).filter (· ≠ "")

/-- `generate_self_signed`: the tree it leaves, and its error. `certify` makes a
certificate and a key, in PEM; it comes from a crate. The permissions of a file
are not part of the tree. -/
def generate_self_signed (certify : List String → Option (Bytes × Bytes)) (k : Kernel)
    (t : FileTree Bytes) (cfg : Config) : FileTree Bytes × Option String :=
  match certify (sans cfg) with
  | none => (t, some "generate certificate")
  | some (cert_pem, key_pem) =>
    match create_parent k t cfg.cert.path with
    | (t, some _) => (t, some ("create " ++ cfg.cert.parent_or_empty.text))
    | (t, none) =>
      match create_parent k t cfg.key.path with
      | (t, some _) => (t, some ("create " ++ cfg.key.parent_or_empty.text))
      | (t, none) =>
        match k.write t cfg.cert.path cert_pem with
        | .error _ => (t, some ("write " ++ cfg.cert.text))
        | .ok t =>
          match k.write t cfg.key.path key_pem with
          | .error _ => (t, some ("write " ++ cfg.key.text))
          | .ok t => (t, none)

theorem create_parent_builds (k : Kernel) (t : FileTree Bytes) (p : Path) :
    Builds t (create_parent k t p).1 := by
  unfold create_parent
  split
  · exact (Kernel.create_dir_all_grows k t _).builds
  · exact Builds.refl t

/-- A file can be written to a path that ends in a name, and then the path leads
to it. -/
structure Written (k : Kernel) (t : FileTree Bytes) (p : Path) : Prop where
  name : ∃ d n, p = Path.child d n
  leads : ∃ l, k.stat t p = some l

theorem written_of_write {k : Kernel} {t t' : FileTree Bytes} {p : Path} {a : Bytes}
    (h : k.write t p a = .ok t') : Written k t' p := by
  obtain ⟨d, n, hp, -, -⟩ := Kernel.write_spec h
  obtain ⟨q, m, hq, -⟩ := Kernel.parent_of_place hp
  obtain ⟨l, hl, -⟩ := Kernel.stat_of_write h
  exact ⟨⟨q, m, hq⟩, l, hl⟩

theorem Written.builds {k : Kernel} {t t' : FileTree Bytes} {p : Path} (h : Written k t p)
    (hb : Builds t t') : Written k t' p := by
  obtain ⟨l, hl⟩ := h.leads
  exact ⟨h.name, l, Kernel.stat_builds hb hl⟩

/-- What a successful `generate_self_signed` has done. -/
theorem generate_spec {certify : List String → Option (Bytes × Bytes)} {k : Kernel}
    {t t' : FileTree Bytes} {cfg : Config} (h : generate_self_signed certify k t cfg = (t', none)) :
    Builds t t' ∧ ∀ p ∈ [cfg.cert, cfg.key], Written k t' p.path := by
  unfold generate_self_signed at h
  cases hc : certify (sans cfg) with
  | none =>
    rw [hc] at h
    cases h
  | some pems =>
    obtain ⟨cert_pem, key_pem⟩ := pems
    simp only [hc] at h
    -- the calls in their order, each one only after the last has succeeded
    have hb₁ := create_parent_builds k t cfg.cert.path
    cases h₁ : create_parent k t cfg.cert.path with
    | mk t₁ e₁ =>
    have hb₂ := create_parent_builds k t₁ cfg.key.path
    cases h₂ : create_parent k t₁ cfg.key.path with
    | mk t₂ e₂ =>
    rw [h₁] at hb₁ h
    rw [h₂] at hb₂
    cases e₁ with
    | some e => cases h
    | none =>
      simp only [h₂] at h
      cases e₂ with
      | some e => cases h
      | none =>
        cases h₃ : k.write t₂ cfg.cert.path cert_pem with
        | error e =>
          simp only [h₃] at h
          cases h
        | ok t₃ =>
          simp only [h₃] at h
          cases h₄ : k.write t₃ cfg.key.path key_pem with
          | error e =>
            simp only [h₄] at h
            cases h
          | ok t₄ =>
            simp only [h₄] at h
            cases h
            have hb₄ := Kernel.write_builds h₄
            refine ⟨((hb₁.trans hb₂).trans (Kernel.write_builds h₃)).trans hb₄, ?_⟩
            intro p hp
            rw [List.mem_cons, List.mem_singleton] at hp
            -- writing the key leaves the certificate where it was written
            rcases hp with rfl | rfl
            · exact (written_of_write h₃).builds hb₄
            · exact written_of_write h₄

/-! ## What is generated lies outside the root -/

/-- The guard has looked at the place itself: the path can be canonicalised, or
its directory can and no link lies at the path. -/
def Checked (k : Kernel) (t : FileTree α) (p : Path) : Prop :=
  (k.canonicalize t p).isSome ∨
    ((p.parent.bind (k.canonicalize t)).isSome ∧ k.is_symlink t p = false)

/-- The place the path names, missing directories taken for made, is not below
`root`. -/
def NotBelow (k : Kernel) (t : FileTree α) (root p : Path) : Prop :=
  ∀ l, k.locate t p = some l → (Path.abs l).starts_with root = false

/-- In `t'` the certificate and the key lie outside the root: the canonical path
of each is not below the canonical root. -/
def Outside (k : Kernel) (t' : FileTree α) (root : Path) (cfg : Config) : Prop :=
  ∀ p ∈ [cfg.cert, cfg.key], ∃ c, k.canonicalize t' p.path = some c ∧ c.starts_with root = false

theorem canonicalize_of_stat {k : Kernel} {t : FileTree α} {p : Path} {l : Loc}
    (hne : p.comps ≠ []) (h : k.stat t p = some l) :
    k.canonicalize t p = some (Path.abs l) := by
  unfold Kernel.canonicalize
  rw [if_neg (fun hc => hne hc.2), h, Option.map_some]

theorem stat_of_canonicalize {k : Kernel} {t : FileTree α} {p c : Path}
    (h : k.canonicalize t p = some c) : ∃ l, k.stat t p = some l ∧ c = Path.abs l := by
  unfold Kernel.canonicalize at h
  split at h
  · cases h
  · obtain ⟨l, hl, he⟩ := Option.map_eq_some_iff.mp h
    exact ⟨l, hl, he.symm⟩

theorem canonicalize_builds {k : Kernel} {t t' : FileTree α} (hb : Builds t t') {p c : Path}
    (h : k.canonicalize t p = some c) : k.canonicalize t' p = some c := by
  unfold Kernel.canonicalize at h ⊢
  split at h
  · cases h
  · rename_i hne
    obtain ⟨l, hl, rfl⟩ := Option.map_eq_some_iff.mp h
    rw [if_neg hne, Kernel.stat_builds hb hl, Option.map_some]

/-- Without a link at its end, a name in a directory is the place it names. -/
theorem locate_of_no_link {k : Kernel} {t : FileTree α} {q : Path} {d : Loc} {n : String}
    (hq : k.stat t q = some d) (hs : k.is_symlink t (q.child n) = false) :
    k.locate t (q.child n) = some (d ++ [n]) := by
  have hl : t.linkAt (d ++ [n]) = none := by
    by_cases hd : t.get d = some .dir
    · have hslot : k.slot t (q.child n) = some (d, n) :=
        Kernel.slot_child_eq_some.mpr ⟨hq, hd, rfl⟩
      cases hg : t.get (d ++ [n]) with
      | none => exact linkAt_of_none hg
      | some e =>
        cases e with
        | dir => exact linkAt_of_dir hg
        | file a => exact linkAt_of_file hg
        | symlink tgt =>
          rw [Kernel.is_symlink, Kernel.lstat_child, hslot, Option.bind_some, hg] at hs
          cases hs
    · exact linkAt_of_none (t.get_below (List.cons_ne_nil n []) hd)
  rw [Path.child_eq_down]
  refine locate_down_names (Kernel.locate_of_stat hq) ?_
  intro s hs0 hsn
  rcases List.prefix_concat_iff.mp (show s <+: [] ++ [n] from hsn) with rfl | hnil
  · exact hl
  · exact absurd (List.prefix_nil.mp hnil) hs0

/-- Where the guard has looked at the place itself, the place is outside. -/
theorem aside_of_checked {k : Kernel} {t : FileTree α} {q : Path} {n : String} {r : Loc}
    (hr : ∃ root, k.stat t root = some r)
    (hg : (canon k t (q.child n)).starts_with (Path.abs r) = false)
    (hc : Checked k t (q.child n)) : NotBelow k t (Path.abs r) (q.child n) := by
  intro l hl
  cases hcan : k.canonicalize t (q.child n) with
  | some c =>
    obtain ⟨m, hm, rfl⟩ := stat_of_canonicalize hcan
    obtain rfl : m = l := Option.some.inj ((Kernel.locate_of_stat hm).symm.trans hl)
    unfold canon at hg
    rwa [hcan] at hg
  | none =>
    rw [Checked, hcan] at hc
    obtain ⟨hp, hs⟩ := hc.resolve_left (by simp)
    obtain ⟨c, hpar⟩ := Option.isSome_iff_exists.mp hp
    unfold canon at hg
    simp only [hcan, hpar] at hg
    rw [Path.parent_child, Option.bind_some] at hpar
    obtain ⟨d, hd, rfl⟩ := stat_of_canonicalize hpar
    rw [locate_of_no_link hd hs, Option.some.injEq] at hl
    subst hl
    rw [Bool.eq_false_iff, ne_eq, Path.starts_with_abs] at hg ⊢
    intro hpre
    rcases List.prefix_concat_iff.mp hpre with rfl | hpre
    · -- the root itself would be the file
      obtain ⟨root, hroot⟩ := hr
      obtain ⟨e, he, hsym⟩ := Kernel.stat_spec hroot
      have hst := Kernel.stat_child_of_get hd he hsym
      rw [canonicalize_of_stat (by simp [Path.child]) hst] at hcan
      cases hcan
    · exact hg hpre

/-- **When the generated key lies outside the root.** The guard accepted the
configuration and `generate_self_signed` succeeded. Then certificate and key lie
outside the root exactly when, for each of the two, the guard has looked at the
place itself, or the path happens to name a place outside. -/
theorem generate_outside_iff (certify : List String → Option (Bytes × Bytes)) (k : Kernel)
    (t t' : FileTree Bytes) (cfg : Config) (hn : cfg.no_tls = false)
    (hg : guard_certs_outside_root k t cfg = .ok ())
    (hs : generate_self_signed certify k t cfg = (t', none)) :
    (∀ root, k.canonicalize t' cfg.root.path = some root → Outside k t' root cfg) ↔
      ∀ root, k.canonicalize t cfg.root.path = some root → ∀ p ∈ [cfg.cert, cfg.key],
        Checked k t p.path ∨ NotBelow k t root p.path := by
  obtain ⟨r, hr, hcan, hguard⟩ := guard_ok hn hg
  obtain ⟨hb, hw⟩ := generate_spec hs
  have hcan' := canonicalize_builds hb hcan
  constructor
  · intro h root hroot p hp
    obtain rfl : Path.abs r = root := Option.some.inj (hcan.symm.trans hroot)
    refine Or.inr fun l hl => ?_
    obtain ⟨c, hc, ho⟩ := h _ hcan' p hp
    obtain ⟨m, hm, rfl⟩ := stat_of_canonicalize hc
    have hloc := Kernel.locate_of_stat hm
    rw [Kernel.locate_builds hb, hl, Option.some.injEq] at hloc
    rw [hloc]
    exact ho
  · intro h root hroot p hp
    obtain rfl : Path.abs r = root := Option.some.inj (hcan'.symm.trans hroot)
    obtain ⟨⟨q, n, hq⟩, l, hl⟩ := hw p hp
    have hne : p.path.comps ≠ [] := by simp [hq, Path.child]
    refine ⟨Path.abs l, canonicalize_of_stat hne hl, ?_⟩
    have hloc := Kernel.locate_of_stat hl
    rw [Kernel.locate_builds hb] at hloc
    rcases h _ hcan p hp with hchk | ha
    · have hgp := hguard p hp
      rw [hq] at hchk hgp hloc
      exact aside_of_checked ⟨_, hr⟩ hgp hchk l hloc
    · exact ha l hloc

/-- A machine whose working directory is the served root. -/
def in_root : Kernel := ⟨40, ["srv"], fun _ => 0⟩

/-- The root and a directory for certificates. -/
def host_tree : FileTree Bytes :=
  (FileTree.empty.with_ [] "srv" .dir).with_ [] "etc" .dir

/-- A configuration with the given certificate and key. -/
def serving (cert key : PathBuf) : Config where
  root := ⟨Path.abs ["srv"], "/srv", .none⟩
  cert := cert
  key := key
  no_tls := false
  gen_cert := true
  cert_san := "localhost"
  auth_user := none
  auth_pass := none
  create_parents := true
  atomic_writes := true
  fsync := false
  update_secret := none
  update_cmd := "scripts/update.sh"

/-- Certificate and key by absolute paths, in a directory that is there. -/
def in_etc : Config :=
  serving ⟨Path.abs ["etc", "server.crt"], "/etc/server.crt", .none⟩
    ⟨Path.abs ["etc", "server.key"], "/etc/server.key", .none⟩

theorem generate_outside_iff_etc :
    guard_certs_outside_root in_root host_tree in_etc = .ok () ∧ ∀ root,
      in_root.canonicalize (generate_self_signed (fun _ => some ([1], [2])) in_root host_tree
        in_etc).1 in_etc.root.path = some root →
      Outside in_root (generate_self_signed (fun _ => some ([1], [2])) in_root host_tree in_etc).1
        root in_etc := by
  have hg : guard_certs_outside_root in_root host_tree in_etc = .ok () := by decide +kernel
  refine ⟨hg, (generate_outside_iff (fun _ => some ([1], [2])) in_root host_tree _ in_etc rfl
    hg (Prod.ext rfl (by decide +kernel))).mpr ?_⟩
  intro root _ p hp
  rw [List.mem_cons, List.mem_singleton] at hp
  rcases hp with rfl | rfl
  · exact Or.inl (Or.inr ⟨by decide +kernel, by decide +kernel⟩)
  · exact Or.inl (Or.inr ⟨by decide +kernel, by decide +kernel⟩)

/-- Certificate and key by bare names. -/
def bare_names : Config :=
  serving ⟨⟨false, [.normal "server.crt"]⟩, "server.crt", .none⟩
    ⟨⟨false, [.normal "server.key"]⟩, "server.key", .none⟩

/-- A bare name has no directory to canonicalise; the guard compares the name
itself, and the key ends up in the root, which is the working directory. -/
theorem bare_names_inside :
    guard_certs_outside_root in_root host_tree bare_names = .ok () ∧
      (generate_self_signed (fun _ => some ([1], [2])) in_root host_tree bare_names).2 = none ∧
      in_root.canonicalize (generate_self_signed (fun _ => some ([1], [2])) in_root host_tree
        bare_names).1 bare_names.key.path = some (Path.abs ["srv", "server.key"]) ∧
      (Path.abs ["srv", "server.key"]).starts_with (Path.abs ["srv"]) = true ∧
      ¬ ∀ root, in_root.canonicalize (generate_self_signed (fun _ => some ([1], [2])) in_root
          host_tree bare_names).1 bare_names.root.path = some root →
        Outside in_root (generate_self_signed (fun _ => some ([1], [2])) in_root host_tree
          bare_names).1 root bare_names := by
  have hkey : in_root.canonicalize (generate_self_signed (fun _ => some ([1], [2])) in_root
      host_tree bare_names).1 bare_names.key.path = some (Path.abs ["srv", "server.key"]) := by
    decide +kernel
  refine ⟨by decide +kernel, by decide +kernel, hkey, by decide, ?_⟩
  intro h
  obtain ⟨c, hc, ho⟩ := h (Path.abs ["srv"]) (by decide +kernel) bare_names.key
    (List.mem_cons_of_mem _ List.mem_cons_self)
  rw [hkey, Option.some.injEq] at hc
  subst hc
  revert ho
  decide

/-! ## What the clients can reach

The tree of this section holds inode numbers, so that a file may have more than
one name in it. -/

/-- The file system `build_handler` serves. -/
def filesystem (cfg : Config) : AutoMkcolFs where
  root := cfg.root.path
  create_parents := cfg.create_parents
  atomic_writes := cfg.atomic_writes
  fsync := cfg.fsync

/-- What a path below the root leads to lies below the root itself, or below
what a link on the way leads to. -/
theorem reached {k : Kernel} {t : FileTree Nat} {root : Path} {r : Loc}
    (hr : k.stat t root = some r) (ns : List String) : ∀ {m : Loc},
    k.stat t (root.down ns) = some m →
      r <+: m ∨ ∃ ms n l, k.is_symlink t (root.down (ms ++ [n])) = true ∧
        k.stat t (root.down (ms ++ [n])) = some l ∧ l <+: m := by
  induction ns using List.reverseRecOn with
  | nil =>
    intro m hm
    rw [Path.down_nil, hr, Option.some.injEq] at hm
    exact Or.inl (hm ▸ List.prefix_refl r)
  | append_singleton ns n ih =>
    intro m hm
    have hm₀ := hm
    rw [← Path.down_child, Kernel.stat_child] at hm
    obtain ⟨d, hd, hw⟩ := Option.bind_eq_some_iff.mp hm
    rw [walk_normal] at hw
    cases hg : t.get (d ++ [n]) with
    | none =>
      rw [hg] at hw
      cases hw
    | some e =>
      have hslot : k.slot t ((root.down ns).child n) = some (d, n) :=
        Kernel.slot_child_eq_some.mpr ⟨hd, t.get_parent hg, rfl⟩
      have below : m = d ++ [n] → r <+: m ∨ ∃ ms n l,
          k.is_symlink t (root.down (ms ++ [n])) = true ∧
            k.stat t (root.down (ms ++ [n])) = some l ∧ l <+: m := by
        rintro rfl
        rcases ih hd with hp | ⟨ms, n', l, hs, hl, hp⟩
        · exact Or.inl (hp.trans (List.prefix_append _ _))
        · exact Or.inr ⟨ms, n', l, hs, hl, hp.trans (List.prefix_append _ _)⟩
      rw [hg] at hw
      cases e with
      | dir => exact below (Option.some.inj hw).symm
      | file i => exact below (Option.some.inj hw).symm
      | symlink tgt =>
        refine Or.inr ⟨ns, n, m, ?_, hm₀, List.prefix_refl m⟩
        rw [← Path.down_child, Kernel.is_symlink, Kernel.lstat_child, hslot, Option.bind_some, hg]

/-- A path without components leads to a directory. -/
theorem comps_ne_nil_of_file {k : Kernel} {t : FileTree Nat} {p : Path} {l : Loc} {i : Nat}
    (h : k.stat t p = some l) (hf : t.get l = some (.file i)) : p.comps ≠ [] := by
  intro hc
  obtain ⟨hs, hw⟩ := Kernel.stat_eq_some.mp h
  rw [follow_eq, hc, walk_nil, Option.some.injEq] at hw
  rw [Kernel.start, hw, hf] at hs
  cases hs

/-- **When the key is out of reach.** The guard accepted the configuration, and
the key is there. Then no path of the clients leads to it exactly when it has no
second name below the root, and no link that they can reach leads to it or to a
directory above it. -/
theorem key_unreachable_iff (k : Kernel) (t : FileTree Nat) (cfg : Config) (ino : Nat) (key : Loc)
    (hn : cfg.no_tls = false) (hg : guard_certs_outside_root k t cfg = .ok ())
    (hk : k.stat t cfg.key.path = some key) (hf : t.get key = some (.file ino)) :
    (∀ ns, k.read t ((filesystem cfg).fspath ns) ≠ some ino) ↔
      (∀ r, k.stat t cfg.root.path = some r →
        ∀ l, r <+: l → l ≠ key → t.get l ≠ some (.file ino)) ∧
      (∀ ns n l, k.is_symlink t ((filesystem cfg).fspath (ns ++ [n])) = true →
        k.stat t ((filesystem cfg).fspath (ns ++ [n])) = some l →
          ∀ s, t.get (l ++ s) ≠ some (.file ino)) := by
  obtain ⟨r, hr, -, hguard⟩ := guard_ok hn hg
  constructor
  · intro h
    refine ⟨?_, ?_⟩
    · intro r' hr' l hl _ hi
      obtain ⟨s, rfl⟩ := hl
      exact h s (Kernel.read_eq_some.mpr ⟨r' ++ s, Kernel.stat_down_of_get hr' hi (by simp), hi⟩)
    · intro ns n l _ hl s hi
      have hs := Kernel.stat_down_of_get hl hi (by simp)
      rw [AutoMkcolFs.fspath, Path.down_down] at hs
      exact h (ns ++ [n] ++ s) (Kernel.read_eq_some.mpr ⟨l ++ s, hs, hi⟩)
  · rintro ⟨hnames, hlinks⟩ ns hread
    obtain ⟨m, hm, hi⟩ := Kernel.read_eq_some.mp hread
    rcases reached hr ns hm with hp | ⟨ms, n, l, hs, hl, s, rfl⟩
    · by_cases hmk : m = key
      · -- the guard has looked at the key itself
        have hcan := canonicalize_of_stat (comps_ne_nil_of_file hk hf) hk
        have hkey := hguard cfg.key (List.mem_cons_of_mem _ List.mem_cons_self)
        unfold canon at hkey
        simp only [hcan] at hkey
        rw [Path.starts_with_abs.mpr (hmk ▸ hp)] at hkey
        cases hkey
      · exact hnames r hr m hp hmk hi
    · exact hlinks ms n l hs hl s hi

theorem link_of_is_symlink {k : Kernel} {t : FileTree Nat} {p : Path}
    (h : k.is_symlink t p = true) : ∃ l tgt, t.get l = some (.symlink tgt) := by
  unfold Kernel.is_symlink at h
  rw [Kernel.lstat_eq] at h
  split at h
  · rename_i tgt hb
    obtain ⟨l, _, hl⟩ := Option.bind_eq_some_iff.mp hb
    exact ⟨l, tgt, hl⟩
  · cases h

/-- The root, the key, and nothing that connects them. -/
def apart : FileTree Nat :=
  ((FileTree.empty.with_ [] "srv" .dir).with_ [] "etc" .dir).with_ ["etc"] "server.key" (.file 7)

theorem key_unreachable_apart :
    guard_certs_outside_root in_root apart in_etc = .ok () ∧
      ∀ ns, in_root.read apart ((filesystem in_etc).fspath ns) ≠ some 7 := by
  have hg : guard_certs_outside_root in_root apart in_etc = .ok () := by decide +kernel
  have hnames : ∀ l ∈ apart.dom, l ≠ ["etc", "server.key"] → apart.get l ≠ some (.file 7) := by
    decide +kernel
  have hlinks : ∀ l ∈ apart.dom, apart.linkAt l = none := by decide +kernel
  refine ⟨hg, (key_unreachable_iff in_root apart in_etc 7 ["etc", "server.key"] rfl hg
    (by decide +kernel) (by decide +kernel)).mpr ⟨?_, ?_⟩⟩
  · intro r _ l _ hne hi
    exact hnames l (apart.mem_dom hi) hne hi
  · intro ns n l hs
    obtain ⟨m, tgt, hm⟩ := link_of_is_symlink hs
    have hl := linkAt_eq_some.mpr hm
    rw [hlinks m (apart.mem_dom hm)] at hl
    cases hl

/-- A root that serves a directory through a link, as `build_handler` means
it to. -/
def linked : FileTree Nat := apart.with_ ["srv"] "data" (.symlink (.abs ["etc"]))

/-- The guard is content with the key, and a client reads it. -/
theorem key_behind_link :
    guard_certs_outside_root in_root linked in_etc = .ok () ∧
      in_root.stat linked in_etc.key.path = some ["etc", "server.key"] ∧
      ¬ ∀ ns, in_root.read linked ((filesystem in_etc).fspath ns) ≠ some 7 := by
  refine ⟨by decide +kernel, by decide +kernel, ?_⟩
  intro h
  exact h ["data", "server.key"] (by decide +kernel)

end WebDavs.Tls
