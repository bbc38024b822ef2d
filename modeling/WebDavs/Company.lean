/-
Moves and deletions in company.

A move loses nothing and a deletion is exact when the job is alone with the tree.
With `Isolation` the same is true of them on the mover, among whatever other jobs
there are on separate ground. For a move whose paths are straight, that its two
places lie apart and are reached past one another is enough for it not to get in its
own way (`clear_of_aside`).
-/
import WebDavs.DeleteExact
import WebDavs.Isolation
import WebDavs.MoveSafe

set_option autoImplicit false

namespace WebDavs.Mover

open WebDavs.Posix WebDavs.Posix.FileTree WebDavs.Posix.Kernel WebDavs.Steps WebDavs.Interleave

/-! ## A move that does not get in its own way -/

/-- Each of the two paths is reached past the place the other names, and the
destination not through its own. -/
structure Aside (k : Kernel) (t : FileTree Bytes) (src dst : Path) (S D : Loc) : Prop where
  dst_way : ∀ v ∈ k.trail t dst, ¬ S <+: v
  src_way : ∀ v ∈ k.trail t src, ¬ D <+: v
  way_in : ∀ v ∈ k.way_in t dst, ¬ D <+: v
  start : t.get (k.start dst) = some .dir ∧ ¬ S <+: k.start dst

section

variable {k : Kernel} {V : Loc → Prop} {t : FileTree Bytes} {src dst : Path} {S D : Loc}
variable {l : Listing}

/-- What a transfer to such a path may write is at its place. -/
theorem eq_of_mem_writes {p : Path} {P v : Loc} (h : Rooted k V t p P) (hv : v ∈ writes k t p) :
    v = P := by
  have hloc := h.locate
  obtain ⟨q, n, d, rfl, hq, rfl⟩ := h.spot
  simp only [writes, Path.parent_child, Path.file_name_child, hq, hloc, Option.map_some,
    Option.toList_some, List.mem_append, List.mem_singleton, or_self] at hv
  exact hv

/-- **A move between places that lie apart is clear.** -/
theorem clear_of_aside (hs : Rooted k V t src S) (hd : Rooted k V t dst D)
    (ha : Aside k t src dst S D) (hl : IsListing k t src l) (b : Path.Tail) :
    Clear k t src dst b l := by
  have hSD : ¬ S <+: D := ha.dst_way D hd.mem_trail
  have hDS : ¬ D <+: S := ha.src_way S hs.mem_trail
  have hapart : ∀ r s, ¬ S <+: D ++ s ∧ ¬ D <+: S ++ r := by
    intro r s
    refine ⟨fun hp => ?_, fun hp => ?_⟩
    · rcases List.prefix_or_prefix_of_prefix hp (List.prefix_append D s) with h | h
      · exact hSD h
      · exact hDS h
    · rcases List.prefix_or_prefix_of_prefix hp (List.prefix_append S r) with h | h
      · exact hDS h
      · exact hSD h
  -- what is behind the name makes no other entry of it
  have htailed : ∀ s, k.entry_at t (src.tailed b) = some s → s = S := by
    intro s he
    unfold Path.tailed at he
    split at he
    · exact hs.entry_at he
    · rw [entry_at_dotted] at he
      exact hs.stat (stat_dotted_eq_some.mp he).1
  have hentry : ∀ f ∈ l.files, ∀ s, k.entry_at t f.1 = some s → s = S ++ f.2 := by
    intro f hf s he
    rw [(hl.file hf).1] at he
    exact (hs.down f.2).entry_at he
  -- what the target of a relative path leads through
  have htarget : ∀ rel, ∀ v ∈ k.trail t (dst.down rel),
      v ∈ k.trail t dst ∨ ∃ s, s ≠ [] ∧ s <+: rel ∧ v = D ++ s :=
    fun rel v hv => mem_trail_down hd.locate (fun s _ _ => hd.plain s) hv
  have hsource : ∀ rel, ∀ v ∈ k.trail t (src.down rel), ¬ D <+: v := by
    intro rel v hv
    rcases mem_trail_down hs.locate (fun s _ _ => hs.plain s) hv with hv | ⟨s, -, -, rfl⟩
    · exact ha.src_way v hv
    · exact (hapart s []).2
  have hoff : ∀ rel, ∀ v ∈ k.trail t (dst.down rel), ¬ S <+: v := by
    intro rel v hv
    rcases htarget rel v hv with hv | ⟨s, -, -, rfl⟩
    · exact ha.dst_way v hv
    · exact (hapart [] s).1
  -- of a path at or below the destination, a place leads through what is above it only
  have hdown : ∀ (g : List String) f, f ∈ l.files →
      D ++ f.2 ∈ k.trail t (dst.down g) → f.2 <+: g := by
    intro g f hf hv
    rcases htarget g _ hv with hv | ⟨s, -, hsg, heq⟩
    · rcases hd.trail_cases hv with hv | hv
      · exact absurd (List.prefix_append D f.2) (ha.way_in _ hv)
      · have : f.2 = [] := by simpa using hv
        rw [this]
        exact List.nil_prefix
    · rw [List.append_cancel_left heq]
      exact hsg
  refine ⟨?_, fun rel hrel v hv => ⟨fun f hf he => ?_, fun s he => ?_⟩, ?_, ⟨ha.start.1, ?_⟩⟩
  · -- no relative path is listed twice
    refine (List.pairwise_map.mp hl.nodup).imp_of_mem fun {f g} hf hg hne heq => hne ?_
    obtain ⟨-, -, d, n, e, hslot, -⟩ := hl.file hf
    have hf' := hentry f hf _ (entry_at_of_slot hslot)
    rw [entry_at_of_slot hslot] at heq
    have hg' := hentry g hg _ heq.symm
    exact List.append_cancel_left (hf'.symm.trans hg')
  · refine hoff rel v hv ?_
    rw [hentry f hf v he]
    exact List.prefix_append _ _
  · rw [htailed s he]
    exact hoff rel v hv
  · intro f hf v hv
    obtain rfl := eq_of_mem_writes (hd.down f.2) hv
    obtain ⟨hfiles, hdirs⟩ := hl.leaf hf
    refine ⟨fun hway => ?_, fun g hg hne hmem => hne (hfiles g hg (hdown g.2 f hf hmem))⟩
    rcases List.mem_append.mp hway with hway | hway
    · obtain ⟨g, hg, hway⟩ := List.mem_flatMap.mp hway
      rcases List.mem_append.mp hway with hway | hway
      · rw [(hl.file hg).1] at hway
        exact hsource g.2 _ (way_in_subset hway) (List.prefix_append _ _)
      · -- the way to another target stops above it
        rcases List.eq_nil_or_concat g.2 with hnil | ⟨r, m, hcat⟩
        · rw [hnil, Path.down_nil] at hway
          exact ha.way_in _ hway (List.prefix_append _ _)
        · rw [List.concat_eq_append] at hcat
          rw [hcat, ← Path.down_child, mem_way_in] at hway
          have hpre : f.2 <+: r := hdown r f hf hway
          have hlt : f.2 <+: g.2 := by
            rw [hcat]
            exact hpre.trans (List.prefix_append _ _)
          have heq := hfiles g hg hlt
          rw [heq] at hcat
          have hlen := hpre.length_le
          rw [hcat, List.length_append, List.length_singleton] at hlen
          omega
    · obtain ⟨rel, hrel, hway⟩ := List.mem_flatMap.mp hway
      rcases List.mem_append.mp hway with hway | hway
      · exact hsource rel _ hway (List.prefix_append _ _)
      · exact hdirs rel hrel (hdown rel f hf hway)
  · intro s he
    rw [htailed s he]
    exact ha.start.2

/-- ... and can go over in one rename. -/
theorem movable_of_aside (hs : Rooted k V t src S) (ha : Aside k t src dst S D)
    (u : FileTree Bytes) (l : Listing) : Movable k t u src dst l := by
  refine .of_plain (fun a he => ?_) (fun a he v hv => ?_) fun rel d n hslot => ?_
  · rw [hs.entry_at he]
    exact ha.start.2
  · rw [hs.entry_at he]
    exact ha.dst_way v (way_in_subset hv)
  · rw [((hs.down rel).slot hslot).1]
    exact hs.plain rel

end

/-! ## From one job to the other kind of machine -/

section

variable {k : Kernel} {h : Host} {t v : FileTree Bytes} {m : Machine}
variable {C : FileTree Bytes × Machine → Event → Prop}

/-- A thread that moves or copies goes on doing so. -/
theorem run_of_single {r : Runner} (hs : Reach (single (Machine.act k)) C (t, .run r) (v, m)) :
    ∃ r', m = .run r' ∧ Reach (alone k) (fun x e => C (x.1, .run x.2) e) (t, r) (v, r') := by
  generalize hx : (v, m) = x at hs
  induction hs generalizing v m with
  | start =>
      cases hx
      exact ⟨r, rfl, .start⟩
  | @next x x' e _ hc hstep ih =>
      subst hx
      obtain ⟨u, m'⟩ := x
      obtain ⟨r', rfl, hreach⟩ := ih rfl
      obtain ⟨y, hy, heq⟩ := Option.map_eq_some_iff.mp hstep
      cases heq
      exact ⟨y.2, rfl, hreach.next hc hy⟩

/-- A thread that deletes goes on doing so, by the path it was given. -/
theorem erase_of_single {d : Deleter} (hs : Reach (single (Machine.act k)) C (t, .erase d) (v, m)) :
    ∃ d', m = .erase d' ∧ d'.src_tail = d.src_tail ∧
      Reach (deleting k) (fun x e => C (x.1, .erase x.2) e) (t, d) (v, d') := by
  generalize hx : (v, m) = x at hs
  induction hs generalizing v m with
  | start =>
      cases hx
      exact ⟨d, rfl, rfl, .start⟩
  | @next x x' e _ hc hstep ih =>
      subst hx
      obtain ⟨u, m'⟩ := x
      obtain ⟨d', rfl, htail, hreach⟩ := ih rfl
      obtain ⟨y, hy, heq⟩ := Option.map_eq_some_iff.mp hstep
      cases heq
      refine ⟨y.2, rfl, ?_, hreach.next hc hy⟩
      rw [← htail]
      cases Deleter.step_cases hy <;> rfl

end

/-! ## Moves -/

/-- `MakesBare`, of the threads that move. -/
def Machine.MakesBare (k : Kernel) (x : FileTree Bytes × Machine) (e : Event) : Prop :=
  match x.2 with
  | .run r => Mover.MakesBare k (x.1, r) e
  | .erase _ => True

/-- Whether `create_dir_all` fails is a matter of a job's ground. -/
theorem makesBare_on_ground (k : Kernel) (t : FileTree Bytes) :
    OnGround k t (Machine.MakesBare k) := by
  intro u v m e ht hc
  cases m with
  | erase d => trivial
  | run r =>
      obtain ⟨⟨S, D, hs⟩, -, hsame, -⟩ := ht
      intro l n rel f hp he hn hb
      have hu := hc l n rel f hp he hn hb
      dsimp only at hu ⊢
      rw [target_path_eq] at hu ⊢
      rw [← hu, create_dir_all_at_same (p := r.dst.down rel) hsame (hs.dst.down rel)]
      exact (create_dir_all_alike hsame (hs.dst.down rel)).2

/-- What was saved in one of two trees that are tied was saved in the other. -/
theorem saved_of_tied {k : Kernel} {t u v : FileTree Bytes} {r : Runner} {l : Listing}
    (ht : Tied k t u v (.run r)) (hl : IsListing k t r.src l) (h : Saved k t r.src r.dst l v) :
    Saved k t r.src r.dst l u := by
  obtain ⟨⟨S, D, hs⟩, -, hsame, -⟩ := ht
  have hsrc := fun rel => (hs.src.down rel).seen
  have hdst := fun rel => (hs.dst.down rel).seen
  refine ⟨fun f hf bs hb => ?_, fun rel hrel => ?_⟩
  · rcases h.1 f hf bs hb with hr | hr
    · left
      rw [(hl.file hf).1] at hr ⊢
      exact (read_same hsame (hsrc f.2)).symm.trans hr
    · right
      exact (read_same hsame (hdst f.2)).symm.trans hr
  · rcases h.2 rel hrel with hr | hr
    · left
      exact (is_dir_same hsame (hsrc rel)).symm.trans hr
    · right
      exact (is_dir_same hsame (hdst rel)).symm.trans hr

/-- **Moves in company lose nothing.** Whatever other jobs there are on separate
ground, and however their calls and those of handlers interleave: when a move between
places that lie apart has ended, every file and directory that was below its source at
first is there still, or is at its target. -/
theorem company_saves (k : Kernel) (h : Host) (t : FileTree Bytes) (s : Server)
    (hs : Reach (Server.step k h) (Separate k h t (Machine.MakesBare k)) (.init t) s)
    (i id : Nat) (r : Runner) (hi : s.threads[i]? = some (id, .run r)) (hop : r.op = .move)
    (hend : r.phase = .finished)
    (haside : ∀ S D, k.locate t r.src = some S → k.locate t r.dst = some D →
      Aside k t r.src r.dst S D) (l : Listing) (hl : IsListing k t r.src l) :
    Saved k t r.src r.dst l s.tree := by
  obtain ⟨⟨hsrc, hdst⟩, op, src, dst, v, hkey, hsolo, htied⟩ :=
    Server.solo (makesBare_on_ground k t) hs hi
  obtain ⟨S, hS, hsrc⟩ := rooted_of_straight (.inl rfl) hsrc
  obtain ⟨D, hD, hdst⟩ := rooted_of_straight (.inr rfl) hdst
  -- the thread was started for this move
  have hmove : op = .move ∧ src.path = r.src ∧ dst.path = r.dst := by
    unfold Server.thread at hkey
    split at hkey
    · have hdel : Op.delete = r.op := congrArg Errand.op hkey
      rw [hop] at hdel
      cases hdel
    · have hop' : op = r.op := congrArg Errand.op hkey
      exact ⟨hop'.trans hop, congrArg Errand.src hkey, congrArg Errand.dst hkey⟩
  obtain ⟨rfl, hsp, hdp⟩ := hmove
  obtain ⟨r', heq, hreach⟩ := run_of_single (r := spawn h .move src dst) hsolo
  cases heq
  refine saved_of_tied htied hl ?_
  -- alone on the tree the move keeps `Inv`, and at its end that says where each file is
  have hstart : Inv k t r.src r.dst src.tail dst.tail (t, spawn h .move src dst) :=
    ⟨hsp, hdp, rfl, rfl, h.nthreads_pos, show At k t _ _ _ _ t .queued from rfl⟩
  have hinv := (reach_careful
    (fun l hl => clear_of_aside hsrc hdst (haside S D hS hD) hl src.tail)
    (fun l u _ _ => movable_of_aside hsrc (haside S D hS hD) u l) hstart hreach).2
  have hat := hinv.phase
  rw [hend] at hat
  exact hat l hl

/-! ## Deletions -/

/-- `Unhindered`, of the threads that delete. -/
def Machine.Unhindered (x : FileTree Bytes × Machine) (e : Event) : Prop :=
  match x.2 with
  | .run _ => True
  | .erase d => Mover.Unhindered (x.1, d) e

theorem unhindered_on_ground (k : Kernel) (t : FileTree Bytes) :
    OnGround k t Machine.Unhindered := by
  intro u v m e _ hc
  cases m with
  | run r => trivial
  | erase d => exact hc

/-- **Deletions in company are exact.** Whatever other jobs there are on separate
ground: what is at and below the place of a deletion stays as it is or goes away, and
when the deletion has ended, none of its calls having failed for a reason from
outside, nothing is left of it and everything has been counted. -/
theorem company_deletes (k : Kernel) (h : Host) (t : FileTree Bytes) (s : Server)
    (hs : Reach (Server.step k h) (Separate k h t Machine.Unhindered) (.init t) s)
    (i id : Nat) (d : Deleter) (hi : s.threads[i]? = some (id, .erase d)) (S : Loc)
    (hd : Deletable k t d.src d.src_tail S) :
    (∀ y, S <+: y → s.tree.get y = t.get y ∨ s.tree.get y = none) ∧
    (d.phase = .finished → d.job.status = .done ∧ (∀ y, S <+: y → s.tree.get y = none) ∧
      d.job.done_files = d.job.total_files ∧ d.job.done_dirs = d.job.total_dirs) := by
  obtain ⟨⟨hst, -⟩, op, src, dst, v, hkey, hsolo, htied⟩ :=
    Server.solo (unhindered_on_ground k t) hs hi
  obtain ⟨P, hP, hroot⟩ := rooted_of_straight (.inl rfl) hst
  obtain ⟨dir, n, hslot, rfl⟩ := hd.slot
  obtain ⟨rfl, -⟩ := hroot.slot hslot
  -- what it deletes is its ground
  have hread : ∀ y, dir ++ [n] <+: y → s.tree.get y = v.get y := by
    intro y hy
    obtain ⟨-, -, hsame, -⟩ := htied
    exact (hsame y ⟨d.src, .inl rfl, .inr (.inr ⟨_, hP, hy⟩)⟩).symm
  -- only a deletion has such a thread
  have hdel : op = .delete := by
    by_contra hop
    unfold Server.thread at hsolo
    rw [if_neg hop] at hsolo
    obtain ⟨r, hr, -⟩ := run_of_single hsolo
    cases hr
  subst hdel
  obtain ⟨d', heq, htail, hreach⟩ := erase_of_single (d := Deleter.start h src) hsolo
  cases heq
  have hsrc : src.path = d.src := congrArg Errand.src hkey
  have hinv : Sure t d.src d.src_tail (dir ++ [n]) (v, d) := by
    refine hreach.inv ?_ fun x e x' hx he hstep => sure_step hd hx he hstep
    exact ⟨⟨hsrc, htail.symm, Shrunk.refl, show FramedAt t _ _ t .queued from rfl⟩,
      h.nthreads_pos, rfl, rfl, rfl⟩
  refine ⟨fun y hy => ?_, fun hend => ?_⟩
  · rw [hread y hy]
    exact hinv.framed.shrunk.sub y
  · have hat := hinv.phase
    rw [hend] at hat
    obtain ⟨hdone, hgone, hcount⟩ := hat
    refine ⟨hdone, fun y hy => ?_, hcount⟩
    rw [hread y hy]
    exact hgone y hy

/-! ## A move and a deletion -/

/-- A directory with a file in it, and another file. -/
def tree_pair : FileTree Bytes :=
  ((FileTree.empty.with_ [] "a" .dir).with_ ["a"] "f" (.file [1])).with_ [] "b" (.file [2])

theorem tree_pair_plain : ∀ x ∈ tree_pair.dom, tree_pair.linkAt x = none := by decide

/-- A move of the directory and the deletion of the file. -/
def pair_errands : List Errand :=
  [⟨.move, .abs ["a"], .abs ["c"]⟩, ⟨.delete, .abs ["b"], .abs ["b"]⟩]

theorem pair_errands_straight : ∀ a ∈ pair_errands, a.Straight box tree_pair := by
  have hp : ∀ {n : String}, Straight box tree_pair (.abs [n]) :=
    straight_abs tree_pair_plain (by simp)
  simp only [pair_errands, List.forall_mem_cons]
  exact ⟨⟨hp, hp⟩, ⟨hp, hp⟩, by simp⟩

theorem pair_errands_apart : ∀ a ∈ pair_errands, ∀ b ∈ pair_errands, b ≠ a →
    Errand.Apart box tree_pair a b := by
  simp only [pair_errands, List.forall_mem_cons]
  refine ⟨⟨fun h => absurd rfl h, fun _ => ?_, by simp⟩, ⟨fun _ => ?_, fun h => absurd rfl h,
    by simp⟩, by simp⟩
  · exact apart_of_incomparable tree_pair_plain (by decide) (by decide) (by decide)
  · exact apart_of_incomparable tree_pair_plain (by decide) (by decide) (by decide)

/-- Both go on at once; the rename of the whole directory is refused. -/
def pair_acts : List Act :=
  [.request .move (.abs ["a"]) (.abs ["c"]) .none, .delete (.abs ["b"]),
    .handler 0 none .none, .handler 1 none .none, .handler 1 none .none,
    .handler 0 none .none, .handler 0 none .none, .handler 1 none .none,
    .thread 0 (.main .none), .thread 1 (.main .none), .thread 0 (.walk 3),
    .thread 1 (.main .none), .thread 0 (.main .none), .thread 0 (.main (.error .exdev)),
    .thread 0 (.main .none), .thread 0 (.main .none), .thread 0 (.worker 0 .none),
    .thread 1 (.main .none), .thread 0 (.worker 0 .none), .thread 0 (.worker 0 .none),
    .thread 0 (.worker 0 .none), .thread 0 (.worker 0 .none), .thread 0 (.worker 0 .none),
    .thread 0 (.main .none), .thread 0 (.main .none), .thread 0 (.main .none)]

/-- `Machine.MakesBare`, as a test. -/
def Machine.makes_bare (k : Kernel) (x : FileTree Bytes × Machine) (e : Event) : Bool :=
  match x.2 with
  | .run r => Mover.makes_bare k (x.1, r) e
  | .erase _ => true

theorem Machine.makes_bare_spec {k : Kernel} {x : FileTree Bytes × Machine} {e : Event}
    (h : Machine.makes_bare k x e = true) : Machine.MakesBare k x e := by
  obtain ⟨u, m⟩ := x
  cases m with
  | run r => exact Mover.makes_bare_spec h
  | erase d => trivial

/-- `Machine.Unhindered`, as a test. -/
def Machine.unhindered (x : FileTree Bytes × Machine) (e : Event) : Bool :=
  match x.2, e with
  | .erase _, .main f => decide (f = .none)
  | .erase _, .worker _ f => decide (f = .none)
  | _, _ => true

theorem Machine.unhindered_spec {x : FileTree Bytes × Machine} {e : Event}
    (h : Machine.unhindered x e = true) : Machine.Unhindered x e := by
  obtain ⟨u, m⟩ := x
  cases m with
  | run r => trivial
  | erase d =>
      cases e with
      | walk fuel => trivial
      | main f =>
          have hf : f = .none := of_decide_eq_true h
          exact hf
      | worker w f =>
          have hf : f = .none := of_decide_eq_true h
          exact hf

/-- A thread that has nothing left to do. -/
def Machine.over : Machine → Bool
  | .run r => decide (r.phase = .finished)
  | .erase d => decide (d.phase = .finished)

/-- A thread that deletes, by a path with nothing behind its last name. -/
def Machine.deletes : Machine → Bool
  | .run _ => false
  | .erase d => decide (d.src_tail = .none)

/-- The move is over and has saved the file. -/
theorem company_saves_pair : ∃ (s : Server) (id : Nat) (r : Runner) (l : Listing),
    s.threads[0]? = some (id, .run r) ∧ IsListing box tree_pair (.abs ["a"]) l ∧
      l.files.length = 1 ∧ Saved box tree_pair r.src r.dst l s.tree := by
  let l : Listing := ⟨[(.abs ["a", "f"], ["f"])], [[]], 1⟩
  have hl : IsListing box tree_pair (.abs ["a"]) l := ⟨3, by decide⟩
  have hrun : ((exec_if (Server.step box box_host)
        (only box_host pair_errands (Machine.makes_bare box)) (.init tree_pair) pair_acts).bind
          fun s => s.threads[0]?.map fun x => (x.2.errand, x.2.over))
      = some (⟨.move, .abs ["a"], .abs ["c"]⟩, true) := by decide
  obtain ⟨s, hs, hout⟩ := Option.bind_eq_some_iff.mp hrun
  obtain ⟨⟨id, m⟩, hi, hm⟩ := Option.map_eq_some_iff.mp hout
  obtain ⟨hkey, hover⟩ := Prod.mk.inj hm
  cases m with
  | erase d => cases hkey
  | run r =>
      have hreach := reach_of_exec_if (fun _ _ h => only_spec (C := Machine.MakesBare box)
        pair_errands_straight pair_errands_apart (fun _ _ => Machine.makes_bare_spec) h) hs
      have hop : r.op = .move := congrArg Errand.op hkey
      have hsrc : r.src = .abs ["a"] := congrArg Errand.src hkey
      have hdst : r.dst = .abs ["c"] := congrArg Errand.dst hkey
      refine ⟨s, id, r, l, hi, hl, rfl, company_saves box box_host tree_pair s hreach 0 id r hi hop
        (of_decide_eq_true hover) (fun S D hS hD => ?_) l (hsrc ▸ hl)⟩
      rw [hsrc, locate_abs tree_pair_plain] at hS
      rw [hdst, locate_abs tree_pair_plain] at hD
      cases hS
      cases hD
      rw [hsrc, hdst]
      exact ⟨by decide, by decide, by decide, by decide, by decide⟩

/-- The deletion is over, and the file is gone. -/
theorem company_deletes_pair : ∃ (s : Server) (id : Nat) (d : Deleter),
    s.threads[1]? = some (id, .erase d) ∧ d.job.status = .done ∧ s.tree.get ["b"] = none := by
  have hrun : ((exec_if (Server.step box box_host)
        (only box_host pair_errands Machine.unhindered) (.init tree_pair) pair_acts).bind
          fun s => s.threads[1]?.map fun x => (x.2.errand, x.2.over && x.2.deletes))
      = some (⟨.delete, .abs ["b"], .abs ["b"]⟩, true) := by decide
  obtain ⟨s, hs, hout⟩ := Option.bind_eq_some_iff.mp hrun
  obtain ⟨⟨id, m⟩, hi, hm⟩ := Option.map_eq_some_iff.mp hout
  obtain ⟨hkey, hover⟩ := Prod.mk.inj hm
  rw [Bool.and_eq_true] at hover
  cases m with
  | run r => cases hover.2
  | erase d =>
      have hreach := reach_of_exec_if (fun _ _ h => only_spec (C := Machine.Unhindered)
        pair_errands_straight pair_errands_apart (fun _ _ => Machine.unhindered_spec) h) hs
      have hsrc : d.src = .abs ["b"] := congrArg Errand.src hkey
      have hd : Deletable box tree_pair d.src d.src_tail ["b"] := by
        rw [hsrc]
        exact ⟨⟨[], "b", by decide, rfl⟩, by decide, fun h => absurd h (by decide),
          fun h => absurd h (by decide), fun h => absurd h (by decide),
          .inl (of_decide_eq_true hover.2)⟩
      obtain ⟨hdone, hgone, -⟩ := (company_deletes box box_host tree_pair s hreach 1 id d hi ["b"]
        hd).2 (of_decide_eq_true hover.1)
      exact ⟨s, id, d, hi, hdone, hgone ["b"] List.prefix_rfl⟩

end WebDavs.Mover
