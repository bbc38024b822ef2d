/-
Files that the page sends, one request after the other.

`BrowserPut` says what one request may leave behind when something fails. Here
nothing does, and the question is what a whole sequence of requests has made in the
end: each file is at its path if no later one has landed on the way to it. Where a
file lands is decided by links alone, so without links below the destination it
lands at the place that its name spells, and on no other way (`Ground.throughout`).
-/
import WebDavs.BrowserPut
import WebDavs.Posix.Making

set_option autoImplicit false

namespace WebDavs.Drops

open WebDavs.Posix WebDavs.Posix.FileTree WebDavs.Mover WebDavs.Sudo.BrowserPut
open WebDavs.Sudo hiding handle_put

/-! ## The requests of one upload -/

/-- A body that comes in these pieces, and nothing that goes wrong. -/
def calm (chunks : List Bytes) : Events where
  create := .none
  frames := chunks.map fun bs => .ok (.data bs .none)
  flush := .none
  parent := .none
  moved := .none
  copy := .none
  helper := .refused

/-- A `POST` of a file to `/api/put`: where it goes, the name of the temp file, and
the pieces that the body comes in. -/
structure Put where
  dst : PathBuf
  tmp : PathBuf
  chunks : List Bytes

/-- `r.ok` of a response. -/
def ok (r : Sudo.Reply) : Bool := 200 ≤ r.status && r.status < 300

/-- `handle_put`. -/
def Put.serve (k : Kernel) (u : FileTree Bytes) (p : Put) : FileTree Bytes × Sudo.Reply :=
  handle_put k u "" (calm p.chunks) p.dst p.tmp

/-- The request succeeds, with a name for its temp file that is not taken. -/
structure Served (k : Kernel) (u : FileTree Bytes) (p : Put) : Prop where
  name : p.tmp.tail = .none
  fresh : k.lstat u p.tmp.path = none
  ok : ok (p.serve k u).2 = true

/-- Where a request puts its file: under its name in the directory above, in place of a
link of that name; or, where it has to copy, where that path leads. -/
def landing (k : Kernel) (u : FileTree Bytes) (p : Put) : Option Loc :=
  match p.dst.path.parent, p.dst.path.file_name with
  | some q, some n =>
    match k.locate u q, k.slot u p.tmp.path with
    | some d', some (d, _) =>
      if k.dev d = k.dev d' then some (d' ++ [n]) else k.locate u p.dst.path
    | _, _ => none
  | _, _ => none

/-- What a request does that puts its file at `l`. -/
structure Lands (k : Kernel) (u : FileTree Bytes) (p : Put) (l : Loc) (u' : FileTree Bytes) :
    Prop where
  landing : landing k u p = some l
  vacant : u.get l ≠ some .dir
  file : u'.get l = some (.file p.chunks.flatten)
  rest : ∀ x, x ≠ l → u'.get x = u.get x ∨ (u.get x = none ∧ u'.get x = some .dir ∧
    ∃ q j, p.dst.path.parent = some q ∧ k.locate u (q.upto j) = some x)
  read : l ∉ k.way_in u p.dst.path → k.read u' p.dst.path = some p.chunks.flatten
  above : l ∉ k.way_in u p.dst.path → ∀ q, p.dst.path.parent = some q → k.is_dir u' q = true

theorem receive_calm (got : Bytes) (chunks : List Bytes) :
    receive got (chunks.map fun bs => .ok (.data bs .none)) = (got ++ chunks.flatten, none) := by
  induction chunks generalizing got with
  | nil => simp [receive]
  | cons bs chunks ih =>
      rw [List.map_cons, receive, ih, List.flatten_cons, List.append_assoc]

theorem body_calm (chunks : List Bytes) : (calm chunks).body = chunks.flatten := by
  rw [Events.body, calm, receive_calm, List.nil_append]

/-- A rename says "across devices" only where it is. -/
theorem rename_exdev {k : Kernel} {t : FileTree Bytes} {p q : Path}
    (h : k.rename t p q = .error .exdev) :
    ∃ d n d' n', k.slot t p = some (d, n) ∧ k.slot t q = some (d', n') ∧ k.dev d ≠ k.dev d' := by
  unfold Kernel.rename at h
  split at h
  · rename_i d n d' n' hs hs'
    by_cases hdev : k.dev d = k.dev d'
    · rw [if_neg (not_not.mpr hdev)] at h
      split at h
      · cases h
      · split at h
        · rename_i e he
          cases h
          exact absurd he Kernel.renameCheck_ne_exdev
        · split at h <;> cases h
    · exact ⟨d, n, d', n', hs, hs', hdev⟩
  · exact absurd (Except.error.inj h) Kernel.renameUnnamed_ne_exdev

/-- ... whatever is behind the names. -/
theorem rename_at_exdev {k : Kernel} {t : FileTree Bytes} {p q : Path} {b c : Path.Tail}
    (h : Mover.rename k t p q (Fault.none.rename_at k t p b q c) = .error .exdev) :
    k.rename t p q = .error .exdev := by
  have hdot : ∀ x : Path, dot_errno k t x .ebusy ≠ .exdev := by
    intro x
    unfold dot_errno
    split
    · simp
    · rcases Kernel.why_cases k t x.dotted with h | h | h <;> simp [h]
  unfold Mover.rename at h
  split at h
  · rename_i e he
    unfold Fault.rename_at at he
    cases h
    split at he
    · cases he
    · split at he
      · cases he
      · assumption
      · split at he
        · cases he
        · split at he
          · exact absurd (Option.some.inj he) (hdot p)
          · split at he
            · exact absurd (Option.some.inj he) (hdot q)
            · split at he <;> cases he
  · exact h

section Landing

variable {k : Kernel} {u v u' : FileTree Bytes} {p : Put} {d : Loc} {m : String}

/-- The tree with the body in the temp file and the directories above the
destination. -/
structure Spooled (k : Kernel) (u : FileTree Bytes) (p : Put) (d : Loc) (m : String)
    (v : FileTree Bytes) : Prop where
  slot : k.slot u p.tmp.path = some (d, m)
  free : u.get (d ++ [m]) = none
  holds : Holds k u p.tmp d m p.chunks.flatten v
  made : ∀ x, x ≠ d ++ [m] → v.get x = u.get x ∨ (u.get x = none ∧ v.get x = some .dir ∧
    ∃ q j, p.dst.path.parent = some q ∧ k.locate u (q.upto j) = some x)

/-- The first half of a request that succeeds. -/
theorem Served.spooled (h : Served k u p) : ∃ d m v, Spooled k u p d m v ∧
    p.serve k u = put_in_place k v "" (calm p.chunks) p.dst p.tmp := by
  have hok := h.ok
  unfold Put.serve handle_put at hok ⊢
  rcases spool_spec h.fresh h.name (calm p.chunks) with
    ⟨r, hr, hs, -⟩ | ⟨hr, d, m, hslot, hnone, hh, hrest⟩
  · -- what the first half answers by itself is an error
    rw [show spool k u (calm p.chunks) p.tmp = ((spool k u (calm p.chunks) p.tmp).1, some r) from
      Prod.ext rfl hr] at hok
    simp only [Drops.ok, Bool.and_eq_true, decide_eq_true_eq] at hok
    omega
  · rw [show spool k u (calm p.chunks) p.tmp = ((spool k u (calm p.chunks) p.tmp).1, none) from
      Prod.ext rfl hr]
    rw [body_calm] at hh
    have hg := make_parent_grows k (spool k u (calm p.chunks) p.tmp).1 p.dst.path .none
    refine ⟨d, m, _, ⟨hslot, hnone, hh.grows hg, ?_⟩, rfl⟩
    intro x hx
    rcases hg x with hsame | ⟨hno, hdir⟩
    · exact .inl (hsame.trans (hrest x hx))
    · rw [hrest x hx] at hno
      -- a new directory is one on the way to the destination
      unfold make_parent at hdir ⊢
      cases hq : p.dst.path.parent with
      | none =>
          rw [hq] at hdir
          rw [hrest x hx, hno] at hdir
          cases hdir
      | some q =>
          rw [hq] at hdir
          refine .inr ⟨hno, hdir, q, ?_⟩
          rcases Kernel.create_dirs_made (k := k) (t := (spool k u (calm p.chunks) p.tmp).1)
            (p := q) (i := q.comps.length) x with hsame | ⟨j, hj⟩
          · rw [show ((Mover.create_dir_all k (spool k u (calm p.chunks) p.tmp).1 q .none).1).get x
              = _ from hsame, hrest x hx, hno] at hdir
            cases hdir
          · exact ⟨j, rfl, (hh.locate _).symm.trans hj⟩

/-- From the file in its place to what there is to say about the whole request. -/
theorem Spooled.lands (h : Spooled k u p d m v) {q : Path} {n : String} {d' l : Loc}
    (hdst : p.dst.path = q.child n) (hq : k.stat v q = some d') (hd' : v.get d' = some .dir)
    (hland : landing k u p = some l) (hnd : v.get l ≠ some .dir)
    (hget : ∀ x, u'.get x = if x = l then some (.file p.chunks.flatten)
      else if x = d ++ [m] then none else v.get x)
    (hread : k.stat u' p.dst.path = some l ∨ l = d' ++ [n]) : Lands k u p l u' := by
  have hfile : u'.get l = some (.file p.chunks.flatten) := by rw [hget, if_pos rfl]
  have hparent : p.dst.path.parent = some q := by rw [hdst, Path.parent_child]
  have hdirs : ∀ x, v.get x = some .dir → u'.get x = some .dir := by
    intro x hx
    have hxl : x ≠ l := fun heq => hnd (heq ▸ hx)
    have hxt : x ≠ d ++ [m] := by
      intro heq
      rw [heq, h.holds.file] at hx
      cases hx
    rw [hget, if_neg hxl, if_neg hxt, hx]
  have htrail : k.trail v q = k.trail u q :=
    (Kernel.locate_trail fun w _ => h.holds.links w).2
  -- the way to the directory above holds neither of the two entries that change
  have habove : l ∉ k.way_in u p.dst.path → k.stat u' q = some d' := by
    intro hl
    rw [hdst, Kernel.mem_way_in, ← htrail] at hl
    refine (Kernel.stat_trail hq (hdirs _) fun w hw _ => ?_).1
    have hwl : w ≠ l := fun heq => hl (heq ▸ hw)
    have hwt : w ≠ d ++ [m] := by
      rintro rfl
      obtain ⟨e, c, hec, hleads⟩ := Kernel.trail_leads hq hd' hw
      rw [hec] at hw
      have hdir := dir_of_leads hleads (by
        rw [← hec]
        exact linkAt_of_file h.holds.file)
      rw [← hec, h.holds.file] at hdir
      cases hdir
    rw [hget, if_neg hwl, if_neg hwt]
  refine ⟨hland, fun hdir => ?_, hfile, fun x hx => ?_, fun hl => ?_, fun hl q' hq' => ?_⟩
  · have hne : l ≠ d ++ [m] := by
      intro heq
      rw [heq, h.free] at hdir
      cases hdir
    rcases h.made l hne with hsame | ⟨hno, -, -⟩
    · exact hnd (hsame.trans hdir)
    · rw [hno] at hdir
      cases hdir
  · by_cases hxt : x = d ++ [m]
    · left
      rw [hget, if_neg hx, if_pos hxt, hxt, h.free]
    · rw [hget, if_neg hx, if_neg hxt]
      exact h.made x hxt
  · refine Kernel.read_eq_some.mpr ⟨l, ?_, hfile⟩
    rcases hread with hst | rfl
    · exact hst
    · rw [hdst]
      exact Kernel.stat_child_of_get (habove hl) hfile (by simp)
  · rw [hparent] at hq'
    obtain rfl := Option.some.inj hq'
    exact Kernel.is_dir_iff.mpr ⟨d', habove hl, hdirs _ hd'⟩

/-- The directory above the destination is there when the file is put in place. -/
theorem Spooled.landing_eq (h : Spooled k u p d m v) {d' : Loc} {n : String}
    (hs : k.slot v p.dst.path = some (d', n)) :
    landing k u p = if k.dev d = k.dev d' then some (d' ++ [n]) else k.locate u p.dst.path := by
  obtain ⟨q, hdst, hq, -⟩ := Kernel.slot_spec hs
  have hloc : k.locate u q = some d' := by
    rw [← h.holds.locate]
    exact Kernel.locate_of_stat hq
  unfold landing
  rw [hdst, Path.parent_child, Path.file_name_child]
  dsimp only
  rw [hloc, h.slot]

/-- **A request that succeeds** puts its file at its landing place; if that is where
its own temp file is, then because this is its directory. -/
theorem Served.lands (h : Served k u p)
    (haside : ∀ d m, k.slot u p.tmp.path = some (d, m) → landing k u p = some (d ++ [m]) →
      (p.dst.path.parent.bind (k.locate u)) = some d) :
    ∃ l, Lands k u p l (p.serve k u).1 := by
  obtain ⟨d, m, v, hsp, hserve⟩ := h.spooled
  have hok := h.ok
  rw [hserve] at hok ⊢
  have hsrc := hsp.holds.slot
  have hlinks := hsp.holds.links
  unfold put_in_place at hok ⊢
  cases hmoved : Mover.rename k v p.tmp.path p.dst.path
      ((calm p.chunks).moved_at k v p.dst p.tmp) with
  | ok t' =>
      have hr := rename_ok hmoved
      -- the temp file becomes the file, in place of what had its name
      obtain ⟨e, c, d', n, ent, hs, hs', he, -, hdev, hcase⟩ := Kernel.rename_spec hr
      rw [hsrc] at hs
      obtain ⟨rfl, rfl⟩ := Prod.mk.inj (Option.some.inj hs)
      rw [hsp.holds.file] at he
      obtain rfl := Option.some.inj he
      have hland := hsp.landing_eq hs'
      rw [if_pos hdev] at hland
      obtain ⟨q, hdst, hq, hd'⟩ := Kernel.slot_spec hs'
      have hleaf : v.get (d' ++ [n]) ≠ some .dir ∧ ∀ x, t'.get x =
          if x = d' ++ [n] then some (.file p.chunks.flatten)
          else if x = d ++ [m] then none else v.get x := by
        rcases hcase with ⟨heq, rfl⟩ | ⟨hne, -⟩
        · rw [← heq, hsp.holds.file]
          refine ⟨by simp, fun x => ?_⟩
          by_cases hx : x = d ++ [m]
          · rw [if_pos hx, hx, hsp.holds.file]
          · rw [if_neg hx, if_neg hx]
        · exact Kernel.rename_leaf_spec hr hsrc hs' hsp.holds.file (by simp) hne
      exact ⟨_, hsp.lands hdst hq hd' hland hleaf.1 hleaf.2 (.inr rfl)⟩
  | error e =>
      rw [hmoved] at hok
      by_cases hx : e = .exdev
      · -- across devices: a copy, and then the temp file goes
        subst hx
        obtain ⟨e, c, d', n, hs, hs', hdev⟩ := rename_exdev (rename_at_exdev hmoved)
        rw [hsrc] at hs
        obtain ⟨rfl, rfl⟩ := Prod.mk.inj (Option.some.inj hs)
        have hland := hsp.landing_eq hs'
        rw [if_neg hdev] at hland
        obtain ⟨q, hdst, hq, hd'⟩ := Kernel.slot_spec hs'
        obtain ⟨bs', hcopied⟩ := hsp.holds.copied p.dst ((calm p.chunks).copy_at k v p.dst p.tmp)
        cases hc : copy_file k v p.tmp.path p.dst.path
            ((calm p.chunks).copy_at k v p.dst p.tmp) with
        | mk w r =>
            dsimp only at hok
            rw [hc] at hok hcopied
            cases r with
            | error e =>
                cases e <;> simp [elevate, Drops.ok, wants_elevation, io_reply] at hok
            | ok len =>
                obtain ⟨hnt, hnd'⟩ := copy_file_at_ok hc
                rw [show (calm p.chunks).copy_at k v p.dst p.tmp = .none by
                  rw [Events.copy_at, hnt, hnd', Fault.copy_file_at_none]; rfl] at hc
                rcases copy_file_spec hc with ⟨-, e, he⟩ | ⟨l, d₂, n₂, bs, hl, hp, -, hnd, hw, hbs⟩
                · cases he
                · obtain ⟨c, hfile, hbs⟩ := hbs len rfl
                  rw [hsp.holds.stat] at hl
                  obtain rfl := Option.some.inj hl
                  rw [hsp.holds.file] at hfile
                  obtain rfl := Entry.file.inj (Option.some.inj hfile)
                  obtain ⟨-, -, hloc⟩ := Kernel.place_spec hp
                  rw [hsp.holds.locate] at hloc
                  rw [hloc] at hland
                  -- a copy onto the temp file itself is what is ruled out
                  have hne : d ++ [m] ≠ d₂ ++ [n₂] := by
                    intro heq
                    rw [← heq] at hland
                    have hdir := haside d m hsp.slot hland
                    rw [hdst, Path.parent_child, Option.bind_some, ← hsp.holds.locate,
                      Kernel.locate_of_stat hq] at hdir
                    exact hdev (by rw [Option.some.inj hdir])
                  rw [if_neg hne] at hbs
                  subst hbs
                  have hgone := hcopied.get_discard
                  refine ⟨_, hsp.lands hdst hq hd' hland hnd (fun x => ?_) (.inl ?_)⟩
                  · rw [hgone, hw]
                    by_cases hx : x = d₂ ++ [n₂]
                    · rw [if_pos hx, if_pos hx, if_neg]
                      exact fun heq => hne (heq.symm.trans hx)
                    · rw [if_neg hx, if_neg hx]
                  · -- what leads to the copy does not lead through the temp file
                    have hst : k.stat w p.dst.path = some (d₂ ++ [n₂]) :=
                      Kernel.stat_of_place (by rw [hw, if_pos rfl]) hnd
                        (fun x hx => by rw [hw, if_neg hx]) hp
                    have hback := Kernel.stat_of_leaf hcopied.file
                      (fun x hx => by rw [hgone, if_neg hx]) hst
                    exact hback.resolve_left fun heq => hne heq.symm
      · -- with any other error the answer is no success
        cases e with
        | exdev => exact absurd rfl hx
        | _ => simp [elevate, Drops.ok, wants_elevation, io_reply] at hok

end Landing

/-! ## One request after the other -/

/-- The tree after these requests. -/
def put_all (k : Kernel) (u : FileTree Bytes) (ps : List Put) : FileTree Bytes :=
  ps.foldl (fun u p => (p.serve k u).1) u

/-- `P` holds of every request, in the tree that it finds. -/
def Throughout (k : Kernel) (P : FileTree Bytes → Put → Prop) : FileTree Bytes → List Put → Prop
  | _, [] => True
  | u, p :: ps => P u p ∧ Throughout k P (p.serve k u).1 ps

/-- The file of this request lands on no way but its own: on that of no other path,
and not above itself. A copy does not land on the temp file that is copied. -/
structure Clear (k : Kernel) (paths : List Path) (u : FileTree Bytes) (p : Put) : Prop where
  others : ∀ l, landing k u p = some l → ∀ q ∈ paths, q ≠ p.dst.path → l ∉ k.trail u q
  own : ∀ l, landing k u p = some l → l ∉ k.way_in u p.dst.path
  aside : ∀ d m, k.slot u p.tmp.path = some (d, m) → landing k u p = some (d ++ [m]) →
    (p.dst.path.parent.bind (k.locate u)) = some d

section Run

variable {k : Kernel} {u u' : FileTree Bytes} {p : Put} {ps : List Put} {l : Loc}
  {paths : List Path} {q : Path}

theorem Lands.dir (h : Lands k u p l u') {x : Loc} (hx : u.get x = some .dir) :
    u'.get x = some .dir := by
  have hne : x ≠ l := fun heq => h.vacant (heq ▸ hx)
  rcases h.rest x hne with hsame | ⟨hno, -⟩
  · exact hsame.trans hx
  · rw [hno] at hx
    cases hx

/-- What a path leads to stays, if the file does not land on its way. -/
theorem Lands.stat (h : Lands k u p l u') (hl : l ∉ k.trail u q) {x : Loc}
    (hs : k.stat u q = some x) : k.stat u' q = some x := by
  refine (Kernel.stat_trail hs h.dir fun v hv hne => ?_).1
  have hvl : v ≠ l := fun heq => hl (heq ▸ hv)
  exact (h.rest v hvl).resolve_right fun hno => hne hno.1

theorem Lands.is_dir (h : Lands k u p l u') (hl : l ∉ k.trail u q) (hd : k.is_dir u q = true) :
    k.is_dir u' q = true := by
  obtain ⟨x, hs, hx⟩ := Kernel.is_dir_iff.mp hd
  exact Kernel.is_dir_iff.mpr ⟨x, h.stat hl hs, h.dir hx⟩

theorem Lands.read_other (h : Lands k u p l u') (hl : l ∉ k.trail u q) {bs : Bytes}
    (hr : k.read u q = some bs) : k.read u' q = some bs := by
  obtain ⟨x, hs, hx⟩ := Kernel.read_eq_some.mp hr
  have hne : x ≠ l := fun heq => hl (heq ▸ Kernel.stat_mem_trail hs hx)
  refine Kernel.read_eq_some.mpr ⟨x, h.stat hl hs, ?_⟩
  rcases h.rest x hne with hsame | ⟨hno, -⟩
  · exact hsame.trans hx
  · rw [hno] at hx
    cases hx

/-- **What is at a path** stays there while requests put files elsewhere. -/
theorem put_all_keeps (hserved : Throughout k (Served k) u ps)
    (hclear : Throughout k (Clear k paths) u ps) (hq : q ∈ paths)
    (hne : ∀ p ∈ ps, q ≠ p.dst.path) :
    (k.is_dir u q = true → k.is_dir (put_all k u ps) q = true) ∧
      ∀ bs, k.read u q = some bs → k.read (put_all k u ps) q = some bs := by
  induction ps generalizing u with
  | nil => exact ⟨id, fun _ => id⟩
  | cons p ps ih =>
      obtain ⟨l, hl⟩ := hserved.1.lands hclear.1.aside
      have hoff := hclear.1.others l hl.landing q hq (hne p List.mem_cons_self)
      obtain ⟨hdir, hread⟩ := ih hserved.2 hclear.2
        fun p' hp' => hne p' (List.mem_cons_of_mem _ hp')
      exact ⟨fun hd => hdir (hl.is_dir hoff hd), fun bs hr => hread bs (hl.read_other hoff hr)⟩

/-- **Every file** that was sent is there in the end, and so are the directories above
it. -/
theorem put_all_files (hserved : Throughout k (Served k) u ps)
    (hclear : Throughout k (Clear k paths) u ps) (hpaths : ∀ p ∈ ps, p.dst.path ∈ paths)
    (hapart : ps.Pairwise fun p p' => p.dst.path ≠ p'.dst.path) {p : Put} (hp : p ∈ ps) :
    k.read (put_all k u ps) p.dst.path = some p.chunks.flatten ∧
      ∀ q ∈ paths, (∀ p' ∈ ps, q ≠ p'.dst.path) → ∀ s n, p.dst.path = q.down (s ++ [n]) →
        k.is_dir (put_all k u ps) q = true := by
  induction ps generalizing u with
  | nil => cases hp
  | cons p' ps ih =>
      obtain ⟨hfirst, hrest⟩ := List.pairwise_cons.mp hapart
      rcases List.mem_cons.mp hp with rfl | hp
      · obtain ⟨l, hl⟩ := hserved.1.lands hclear.1.aside
        have hown := hclear.1.own l hl.landing
        refine ⟨?_, fun q hq hne s n hs => ?_⟩
        · exact (put_all_keeps hserved.2 hclear.2 (hpaths p List.mem_cons_self) hfirst).2 _
            (hl.read hown)
        · have hparent : p.dst.path.parent = some (q.down s) := by
            rw [hs, Path.parent_down_concat]
          have habove := Kernel.is_dir_of_down (hl.above hown _ hparent)
          exact (put_all_keeps hserved.2 hclear.2 hq
            fun p' hp' => hne p' (List.mem_cons_of_mem _ hp')).1 habove
      · obtain ⟨hread, hdirs⟩ := ih hserved.2 hclear.2
          (fun x hx => hpaths x (List.mem_cons_of_mem _ hx)) hrest hp
        exact ⟨hread, fun q hq hne => hdirs q hq fun x hx => hne x (List.mem_cons_of_mem _ hx)⟩

end Run

/-! ## A directory with no links in the way -/

section Ground

variable {k : Kernel} {u u' : FileTree Bytes} {D : Path} {d : Loc} {rs : List (List String)}
  {p : Put} {ps : List Put} {l : Loc} {f r : List String}

/-- `D` is the directory at `d`, and on the ways to `rs` below it there is no link. -/
structure Ground (k : Kernel) (D : Path) (d : Loc) (rs : List (List String)) (u : FileTree Bytes) :
    Prop where
  stat : k.stat u D = some d
  dir : u.get d = some .dir
  plain : ∀ r ∈ rs, ∀ s, s ≠ [] → s <+: r → u.linkAt (d ++ s) = none

theorem Ground.locate (h : Ground k D d rs u) (hr : r ∈ rs) {s : List String} (hs : s <+: r) :
    k.locate u (D.down s) = some (d ++ s) := by
  refine FileTree.locate_down_names (Kernel.locate_of_stat h.stat) ?_
  intro x hx hxs
  exact h.plain r hr x hx (hxs.trans hs)

theorem Ground.is_dir_iff (h : Ground k D d rs u) (hr : r ∈ rs) :
    k.is_dir u (D.down r) = true ↔ u.get (d ++ r) = some .dir := by
  rw [Kernel.is_dir_iff]
  constructor
  · rintro ⟨x, hs, hx⟩
    have hloc := (Kernel.locate_of_stat hs).symm.trans (h.locate hr List.prefix_rfl)
    rwa [← Option.some.inj hloc]
  · intro hd
    exact ⟨_, Kernel.stat_down_of_get h.stat hd (by simp), hd⟩

/-- Files land at the places that their names spell. -/
theorem Ground.landing (h : Ground k D d rs u) (hf : f ∈ rs) (hne : f ≠ [])
    (hdst : p.dst.path = D.down f) (hl : landing k u p = some l) : l = d ++ f := by
  obtain ⟨s, n, rfl⟩ := (List.eq_nil_or_concat' f).resolve_left hne
  unfold Drops.landing at hl
  rw [hdst, Path.parent_down_concat, Path.file_name_down_concat] at hl
  dsimp only at hl
  rw [h.locate hf (List.prefix_append s [n]), h.locate hf List.prefix_rfl] at hl
  split at hl
  · rename_i x y hx hy
    obtain rfl := Option.some.inj hx
    split at hl
    · rw [← Option.some.inj hl, List.append_assoc]
    · exact (Option.some.inj hl).symm
  · cases hl

/-- Its own temp file is where a file lands only in the directory of the temp file. -/
theorem Ground.aside (h : Ground k D d rs u) (hf : f ∈ rs) (hne : f ≠ [])
    (hdst : p.dst.path = D.down f) {d' : Loc} {m : String}
    (hl : Drops.landing k u p = some (d' ++ [m])) :
    (p.dst.path.parent.bind (k.locate u)) = some d' := by
  have heq := h.landing hf hne hdst hl
  obtain ⟨s, n, rfl⟩ := (List.eq_nil_or_concat' f).resolve_left hne
  rw [← List.append_assoc] at heq
  obtain ⟨rfl, -⟩ := List.append_inj' heq rfl
  rw [hdst, Path.parent_down_concat, Option.bind_some, h.locate hf (List.prefix_append s [n])]

/-- The way to `D` runs through directories and links to them. -/
theorem Ground.off_way (h : Ground k D d rs u) (hf : f ∈ rs) (hne : f ≠ [])
    (hnd : u.get (d ++ f) ≠ some .dir) : d ++ f ∉ k.trail u D := by
  intro hmem
  obtain ⟨x, n, hx, hleads⟩ := Kernel.trail_leads h.stat h.dir hmem
  have hlink := h.plain f hf f hne List.prefix_rfl
  rw [hx] at hlink hnd
  exact hnd (dir_of_leads hleads hlink)

theorem Ground.off (h : Ground k D d rs u) (hf : f ∈ rs) (hne : f ≠ [])
    (hnd : u.get (d ++ f) ≠ some .dir) (hr : r ∈ rs) {s : List String} (hs : s <+: r)
    (hfs : ¬ f <+: s) : d ++ f ∉ k.trail u (D.down s) := by
  intro hmem
  rcases Kernel.mem_trail_down (Kernel.locate_of_stat h.stat)
    (fun x hx hxs => h.plain r hr x hx (hxs.trans hs)) hmem with hway | ⟨x, -, hxs, heq⟩
  · exact h.off_way hf hne hnd hway
  · rw [List.append_cancel_left heq] at hfs
    exact hfs hxs

/-- Without links nothing is in the way of anything else. -/
theorem Ground.clear (h : Ground k D d rs u) (hf : f ∈ rs) (hne : f ≠ [])
    (hdst : p.dst.path = D.down f) (hfree : ∀ r ∈ rs, f <+: r → r = f) (hserved : Served k u p) :
    Clear k (rs.map D.down) u p := by
  have haside : ∀ d' m, k.slot u p.tmp.path = some (d', m) →
      Drops.landing k u p = some (d' ++ [m]) →
      (p.dst.path.parent.bind (k.locate u)) = some d' := fun _ _ _ => h.aside hf hne hdst
  obtain ⟨l, hl⟩ := hserved.lands haside
  have hnd := hl.vacant
  rw [h.landing hf hne hdst hl.landing] at hnd
  refine ⟨?_, ?_, haside⟩
  · intro l' hl' q hq hqne
    obtain ⟨r, hr, rfl⟩ := List.mem_map.mp hq
    rw [h.landing hf hne hdst hl']
    refine h.off hf hne hnd hr List.prefix_rfl fun hfr => hqne ?_
    rw [hfree r hr hfr, hdst]
  · intro l' hl'
    rw [h.landing hf hne hdst hl']
    obtain ⟨s, n, rfl⟩ := (List.eq_nil_or_concat' f).resolve_left hne
    rw [hdst, ← Path.down_child, Kernel.mem_way_in]
    refine h.off hf hne hnd hf (List.prefix_append s [n]) fun hp => ?_
    have hlen := hp.length_le
    simp only [List.length_append, List.length_singleton] at hlen
    omega

theorem Ground.next (h : Ground k D d rs u) (hf : f ∈ rs) (hne : f ≠ [])
    (hdst : p.dst.path = D.down f) (hl : Lands k u p l u') : Ground k D d rs u' := by
  have hat := h.landing hf hne hdst hl.landing
  have hnd := hl.vacant
  rw [hat] at hnd
  refine ⟨hl.stat (hat ▸ h.off_way hf hne hnd) h.stat, hl.dir h.dir, fun r hr s hs hsr => ?_⟩
  by_cases hx : d ++ s = l
  · rw [hx]
    exact linkAt_of_file hl.file
  · rcases hl.rest _ hx with hsame | ⟨-, hdir, -⟩
    · rw [linkAt_of_get_eq hsame]
      exact h.plain r hr s hs hsr
    · exact linkAt_of_dir hdir

/-- A directory that a request makes is above its file. -/
theorem Ground.made (h : Ground k D d rs u) (hf : f ∈ rs) (hne : f ≠ [])
    (hdst : p.dst.path = D.down f) (hl : Lands k u p l u') (hd : u'.get (d ++ r) = some .dir) :
    u.get (d ++ r) = some .dir ∨ r <+: f := by
  have hx : d ++ r ≠ l := by
    intro heq
    rw [heq, hl.file] at hd
    cases hd
  rcases hl.rest _ hx with hsame | ⟨hno, -, q, j, hq, hj⟩
  · exact .inl (hsame.symm.trans hd)
  · right
    obtain ⟨s, n, rfl⟩ := (List.eq_nil_or_concat' f).resolve_left hne
    rw [hdst, Path.parent_down_concat] at hq
    obtain rfl := Option.some.inj hq
    rcases Path.upto_down D s j with heq | ⟨i, heq⟩
    · -- a part of the path of `D` leads to something already
      obtain ⟨m, hm⟩ := Kernel.stat_upto h.stat j
      rw [heq, Kernel.locate_of_stat hm] at hj
      obtain ⟨e, he, -⟩ := Kernel.stat_spec hm
      rw [Option.some.inj hj, hno] at he
      cases he
    · have hi : s.take i <+: s ++ [n] := (List.take_prefix i s).trans (List.prefix_append s [n])
      rw [heq, h.locate hf hi] at hj
      rw [← List.append_cancel_left (Option.some.inj hj)]
      exact hi

/-- The files go to paths below `D` that are on no other one's way. -/
def LandsBelow (D : Path) (rs : List (List String)) (ps : List Put) : Prop :=
  ∀ p ∈ ps, ∃ f ∈ rs, f ≠ [] ∧ p.dst.path = D.down f ∧ ∀ r ∈ rs, f <+: r → r = f

theorem Ground.throughout (h : Ground k D d rs u) (hfits : LandsBelow D rs ps)
    (hserved : Throughout k (Served k) u ps) :
    Throughout k (Clear k (rs.map D.down)) u ps ∧ Ground k D d rs (put_all k u ps) ∧
      ∀ r, (put_all k u ps).get (d ++ r) = some .dir →
        u.get (d ++ r) = some .dir ∨ ∃ p ∈ ps, ∃ f, p.dst.path = D.down f ∧ r <+: f := by
  induction ps generalizing u with
  | nil => exact ⟨trivial, h, fun _ => .inl⟩
  | cons p ps ih =>
      obtain ⟨f, hf, hne, hdst, hfree⟩ := hfits p List.mem_cons_self
      have hclear := h.clear hf hne hdst hfree hserved.1
      obtain ⟨l, hl⟩ := hserved.1.lands hclear.aside
      obtain ⟨hcl, hend, hdirs⟩ := ih (h.next hf hne hdst hl)
        (fun x hx => hfits x (List.mem_cons_of_mem _ hx)) hserved.2
      refine ⟨⟨hclear, hcl⟩, hend, fun r hr => ?_⟩
      rcases hdirs r hr with hd | ⟨x, hx, g, hg, hrg⟩
      · rcases h.made hf hne hdst hl hd with hd | hrf
        · exact .inl hd
        · exact .inr ⟨p, List.mem_cons_self, f, hdst, hrf⟩
      · exact .inr ⟨x, List.mem_cons_of_mem _ hx, g, hg, hrg⟩

end Ground

end WebDavs.Drops
