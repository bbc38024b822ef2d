/-
What is kept through a whole job.

A job's threads make directories, rename, copy and remove; everything else it does
is on its own record. So to know something of the tree at every moment of a job it
is enough to say what each of these four calls keeps, of the tree as a whole
(`tree`), of a file that has not gone over yet (`ready`) and of one that has
(`through`). `Conduct` is a list of these obligations and `run_spec` what they come
to, whatever the schedule and the failures.
-/
import WebDavs.Pool
import WebDavs.MoveSafe

set_option autoImplicit false

namespace WebDavs.Mover

open WebDavs.Posix WebDavs.Posix.FileTree WebDavs.Steps

/-- What the calls of a job of `op` from `src` to `dst` keep, for the files and
directories of `l`. -/
structure Conduct (k : Kernel) (t : FileTree Bytes) (op : Op) (dst : Path) (l : Listing) where
  tree : FileTree Bytes → Prop
  ready : FileTree Bytes → Path × List String → Prop
  through : FileTree Bytes → Path × List String → Prop
  start : tree t ∧ ∀ f ∈ l.files, ready t f
  made : ∀ u rel fault, tree u → rel ∈ l.dirs →
    tree (create_dir_all k u (dst.down rel) fault).1 ∧
      ∀ f ∈ l.files, ready u f → ready (create_dir_all k u (dst.down rel) fault).1 f
  renamed : ∀ u u' f, op = .move → tree u → f ∈ l.files → ready u f →
    k.rename u f.1 (dst.down f.2) = .ok u' →
    tree u' ∧ through u' f ∧ ∀ g ∈ l.files, g ≠ f → (ready u g → ready u' g) ∧
      (through u g → through u' g)
  copied : ∀ u u' f fault res, tree u → f ∈ l.files → ready u f →
    copy_file k u f.1 (dst.down f.2) fault = (u', res) →
    tree u' ∧ (∀ m, res = .ok m → through u' f) ∧
      ∀ g ∈ l.files, g ≠ f → (ready u g → ready u' g) ∧ (through u g → through u' g)
  removed : ∀ u u' f, op = .move → tree u → f ∈ l.files → through u f →
    k.remove_file u f.1 = .ok u' →
    tree u' ∧ through u' f ∧ ∀ g ∈ l.files, g ≠ f → (ready u g → ready u' g) ∧
      (through u g → through u' g)

namespace Conduct

variable {k : Kernel} {t u : FileTree Bytes} {op : Op} {src dst : Path} {l : Listing}

/-- What is known of the file a worker has, and that a failure with it has been
counted. Only a move renames or removes. -/
def Held (c : Conduct k t op dst l) (u : FileTree Bytes) (failed : Nat) (f : Path × List String) :
    Worker → Prop
  | .measure _ => c.ready u f
  | .announce _ => c.ready u f
  | .rename _ => c.ready u f ∧ op = .move
  | .copy _ => c.ready u f
  | .remove _ => c.through u f ∧ op = .move
  | .report _ true => c.through u f
  | .note _ _ => 0 < failed
  | .report _ false => 0 < failed
  | _ => True

/-- The terms of the workers. -/
def terms (c : Conduct k t op dst l) (u : FileTree Bytes) (failed : Nat) :
    Pool.Terms Worker (Path × List String) where
  waiting f := c.ready u f
  held w f := c.Held u failed f w
  settled f := c.through u f
  always _ := True

/-- The books of the workers. -/
def Books (c : Conduct k t op dst l) (u : FileTree Bytes) (ws : List Worker) (next failed : Nat) :
    Prop :=
  Pool.Books Worker.idx .stopped (c.terms u failed) l.files ws next failed

theorem Held.keep {c : Conduct k t op dst l} {u' : FileTree Bytes} {failed failed' : Nat}
    {f : Path × List String} {w : Worker} (h : c.Held u failed f w)
    (hr : c.ready u f → c.ready u' f) (ho : c.through u f → c.through u' f) (hle : failed ≤ failed') :
    c.Held u' failed' f w := by
  cases w with
  | measure n => exact hr h
  | announce x => exact hr h
  | rename x => exact ⟨hr h.1, h.2⟩
  | copy x => exact hr h
  | remove x => exact ⟨ho h.1, h.2⟩
  | note x err => exact Nat.lt_of_lt_of_le h hle
  | report x ok =>
      cases ok with
      | true => exact ho h
      | false => exact Nat.lt_of_lt_of_le h hle
  | _ => trivial

/-! ## Workers -/

section Work

variable {ws : List Worker} {next failed i : Nat} {w : Worker}

/-- What a call of a worker keeps. -/
theorem work_keeps (c : Conduct k t op dst l) (hn : l.files.Nodup) {r : Runner} (hdst : r.dst = dst)
    (hop : r.op = op) {fault : Fault} {y : FileTree Bytes × Job × Nat × Nat × Worker}
    (ht : c.tree u) (hB : c.Books u ws next failed) (hw : ws[i]? = some w)
    (hy : Runner.WorkCase k u r l next failed fault w y) :
    c.tree y.1 ∧ c.Books y.1 (ws.set i y.2.2.2.2) y.2.2.1 y.2.2.2.1 := by
  subst hdst hop
  -- a call is about the file the worker has, and leaves the others as they are
  have hmove : ∀ (n : Nat) (f : Path × List String) (u' : FileTree Bytes) (w' : Worker)
      (failed' : Nat), w.idx = some n → l.files[n]? = some f → w'.idx = some n →
      failed ≤ failed' → c.tree u' → c.Held u' failed' f w' →
      (∀ g ∈ l.files, g ≠ f → (c.ready u g → c.ready u' g) ∧ (c.through u g → c.through u' g)) →
      c.tree u' ∧ c.Books u' (ws.set i w') next failed' := by
    intro n f u' w' failed' hidx hf hidx' hle ht' hheld hrest
    refine ⟨ht', hB.hold hw hidx hf hidx' rfl hle hheld trivial fun m g hmn hg => ?_⟩
    have hne : g ≠ f := by
      rintro rfl
      exact hmn (idx_unique hn hg hf)
    obtain ⟨hr, ho⟩ := hrest g (List.mem_of_getElem? hg) hne
    exact ⟨hr, fun v hv => Held.keep hv hr ho hle, ho, id⟩
  have hsame : ∀ f : Path × List String, ∀ g ∈ l.files, g ≠ f →
      (c.ready u g → c.ready u g) ∧ (c.through u g → c.through u g) := fun _ _ _ _ => ⟨id, id⟩
  have hhas : ∀ n, w.idx = some n → ∀ f, l.files[n]? = some f → c.Held u failed f w := by
    intro n hidx f hf
    obtain ⟨-, g, hg, hh⟩ := hB.held i _ _ hw hidx
    rw [hf] at hg
    cases hg
    exact hh
  cases hy with
  | drained hnone => exact ⟨ht, hB.drained hw rfl rfl hnone⟩
  | taken g hf => exact ⟨ht, hB.taken hw rfl hf rfl rfl id⟩
  | measured idx sf rel hf =>
      exact hmove idx (sf, rel) u (.announce ⟨idx, _⟩) failed rfl hf rfl (Nat.le_refl _) ht
        (hhas idx rfl _ hf) (hsame _)
  | announced task sf rel hf =>
      have hr : c.ready u (sf, rel) := hhas task.idx rfl _ hf
      by_cases hfirst : r.op = .move ∧ r.same_drive = true
      · have hw' : r.first task = .rename task := if_pos hfirst
        rw [hw']
        exact hmove task.idx (sf, rel) u (.rename task) failed rfl hf rfl (Nat.le_refl _) ht
          ⟨hr, hfirst.1⟩ (hsame _)
      · have hw' : r.first task = .copy task := if_neg hfirst
        rw [hw']
        exact hmove task.idx (sf, rel) u (.copy task) failed rfl hf rfl (Nat.le_refl _) ht hr
          (hsame _)
  | renamed task sf rel u' hf hr =>
      obtain ⟨hready, hmv⟩ := hhas task.idx rfl _ hf
      obtain ⟨ht', hover, hrest⟩ :=
        c.renamed u u' (sf, rel) hmv ht (List.mem_of_getElem? hf) hready hr
      exact hmove task.idx (sf, rel) u' (.report task true) failed rfl hf rfl (Nat.le_refl _) ht'
        hover hrest
  | unrenamed task sf rel e hf hr =>
      obtain ⟨hready, -⟩ := hhas task.idx rfl _ hf
      by_cases hfb : falls_back e = true
      · simp only [hfb, if_true]
        exact hmove task.idx (sf, rel) u (.copy task) failed rfl hf rfl (Nat.le_refl _) ht hready
          (hsame _)
      · simp only [hfb]
        exact hmove task.idx (sf, rel) u (.fail task (some e)) failed rfl hf rfl (Nat.le_refl _) ht
          trivial (hsame _)
  | copied task sf rel u' m hf hcp =>
      obtain ⟨ht', hover, hrest⟩ :=
        c.copied u u' (sf, rel) _ _ ht (List.mem_of_getElem? hf) (hhas task.idx rfl _ hf) hcp
      by_cases hmv : r.op = .move
      · simp only [hmv, if_true]
        exact hmove task.idx (sf, rel) u' (.remove task) failed rfl hf rfl (Nat.le_refl _) ht'
          ⟨hover m rfl, hmv⟩ hrest
      · simp only [hmv, if_false]
        exact hmove task.idx (sf, rel) u' (.report task true) failed rfl hf rfl (Nat.le_refl _) ht'
          (hover m rfl) hrest
  | uncopied task sf rel u' e hf hcp =>
      obtain ⟨ht', -, hrest⟩ :=
        c.copied u u' (sf, rel) _ _ ht (List.mem_of_getElem? hf) (hhas task.idx rfl _ hf) hcp
      exact hmove task.idx (sf, rel) u' (.fail task (some e)) failed rfl hf rfl (Nat.le_refl _) ht'
        trivial hrest
  | removed task sf rel u' hf hr =>
      obtain ⟨hover, hmv⟩ := hhas task.idx rfl _ hf
      obtain ⟨ht', hover', hrest⟩ :=
        c.removed u u' (sf, rel) hmv ht (List.mem_of_getElem? hf) hover hr
      exact hmove task.idx (sf, rel) u' (.report task true) failed rfl hf rfl (Nat.le_refl _) ht'
        hover' hrest
  | unremoved task sf rel e hf hr =>
      exact hmove task.idx (sf, rel) u (.fail task none) failed rfl hf rfl (Nat.le_refl _) ht
        trivial (hsame _)
  | failed task err =>
      obtain ⟨-, g, hg, -⟩ := hB.held i _ _ hw rfl
      exact hmove task.idx g u (.note task err) (failed + 1) rfl hg rfl (Nat.le_succ _) ht
        (Nat.succ_pos _) (hsame _)
  | noted task err e =>
      obtain ⟨-, g, hg, hcount⟩ := hB.held i _ _ hw rfl
      exact hmove task.idx g u (.report task false) failed rfl hg rfl (Nat.le_refl _) ht
        hcount (hsame _)
  | reported task ok =>
      refine ⟨ht, hB.reported hw rfl rfl (by simp) (Nat.le_refl _) fun f hf hh => ?_⟩
      cases ok with
      | true => exact .inr hh
      | false => exact .inl hh

end Work

/-! ## Runs -/

/-- What a job may have come to: nothing yet, its work as far as it got, one rename,
or the removal of the source. -/
def Outcome (C : ∀ l, IsListing k t src l → Conduct k t op dst l) (u : FileTree Bytes) : Prop :=
  u = t ∨ (op = .move ∧ k.rename t src dst = .ok u) ∨
    ∃ l hl v, (C l hl).tree v ∧ (u = v ∨ op = .move ∧ ∃ b f, u = (remove_dir_all_at k v src b f).1)

/-- What is known of the tree in each phase. -/
def At (C : ∀ l, IsListing k t src l → Conduct k t op dst l) (u : FileTree Bytes) :
    Phase → Prop
  | .queued => u = t
  | .walking => u = t
  | .checking l => u = t ∧ IsListing k t src l
  | .renaming l => u = t ∧ IsListing k t src l ∧ op = .move
  | .making l _ => ∃ hl, (C l hl).tree u ∧ ∀ f ∈ l.files, (C l hl).ready u f
  | .working l ws next failed => ∃ hl, (C l hl).tree u ∧ (C l hl).Books u ws next failed
  | .cleaning l failed => ∃ hl, (C l hl).tree u ∧ (failed = 0 → ∀ f ∈ l.files, (C l hl).through u f)
  | .ending => Outcome C u
  | .finished => Outcome C u

theorem At.outcome {C : ∀ l, IsListing k t src l → Conduct k t op dst l} :
    ∀ {p : Phase}, At C u p → Outcome C u
  | .queued, h => .inl h
  | .walking, h => .inl h
  | .checking _, h => .inl h.1
  | .renaming _, h => .inl h.1
  | .making l _, ⟨hl, ht, _⟩ => .inr (.inr ⟨l, hl, u, ht, .inl rfl⟩)
  | .working l _ _ _, ⟨hl, ht, _⟩ => .inr (.inr ⟨l, hl, u, ht, .inl rfl⟩)
  | .cleaning l _, ⟨hl, ht, _⟩ => .inr (.inr ⟨l, hl, u, ht, .inl rfl⟩)
  | .ending, h => h
  | .finished, h => h

/-- The invariant of a job with a conduct. -/
structure Inv (C : ∀ l, IsListing k t src l → Conduct k t op dst l)
    (s : FileTree Bytes × Runner) : Prop where
  op_eq : s.2.op = op
  src_eq : s.2.src = src
  dst_eq : s.2.dst = dst
  crew : 0 < s.2.nthreads
  phase : At C s.1 s.2.phase

theorem inv_step {C : ∀ l, IsListing k t src l → Conduct k t op dst l}
    {s s' : FileTree Bytes × Runner} {e : Event} (h : Inv C s) (hs : alone k s e = some s') :
    Inv C s' := by
  obtain ⟨v, r⟩ := s
  obtain ⟨hop, hsrc, hdst, hcrew, hat⟩ := h
  have hinv : ∀ (v' : FileTree Bytes) (p : Phase) (job : Job), At C v' p →
      Inv C (v', { r with phase := p, job := job }) := fun v' p job hp =>
    ⟨hop, hsrc, hdst, hcrew, hp⟩
  dsimp only at hop hsrc hdst hcrew hat
  cases Runner.step_cases hs with
  | started f hp =>
      rw [hp] at hat
      exact hinv _ _ _ hat
  | unwalked ev e' hp =>
      rw [hp] at hat
      exact hinv _ _ _ (show Outcome C v from .inl hat)
  -- the tree has not changed up to here, so the listing is that of the first tree
  | walked fuel l hp hw =>
      rw [hp] at hat
      have hvt : v = t := hat
      subst hvt
      exact hinv v (.checking l) _ ⟨rfl, fuel, hsrc ▸ hw⟩
  | checked_fast f l hp hmv hsd hx =>
      rw [hp] at hat
      obtain ⟨rfl, hl⟩ := hat
      exact hinv _ _ r.job ⟨rfl, hl, hop ▸ hmv⟩
  | checked_slow f l hp =>
      rw [hp] at hat
      obtain ⟨rfl, hl⟩ := hat
      exact hinv _ _ r.job ⟨hl, (C l hl).start⟩
  | renamed_tree f l v' hp hr =>
      rw [hp] at hat
      obtain ⟨rfl, hl, hmv⟩ := hat
      rw [hsrc, hdst] at hr
      exact hinv _ _ _ (show Outcome C v' from .inr (.inl ⟨hmv, hr⟩))
  | unrenamed_tree f l hp =>
      rw [hp] at hat
      obtain ⟨rfl, hl, -⟩ := hat
      exact hinv _ _ r.job ⟨hl, (C l hl).start⟩
  | made f l n rel hp hn =>
      rw [hp] at hat
      obtain ⟨hl, ht, hready⟩ := hat
      -- what is ready stays so when one more directory is made
      subst hdst
      have hmade := (C l hl).made v rel (f.create_dir_all_at k v (r.dst.down rel) (r.target_tail rel))
        ht (List.mem_of_getElem? hn)
      refine hinv _ (.making l (n + 1)) _ ?_
      exact ⟨hl, hmade.1, fun g hg => hmade.2 g hg (hready g hg)⟩
  | spawned f l n hp hn =>
      rw [hp] at hat
      obtain ⟨hl, ht, hready⟩ := hat
      exact hinv _ _ r.job ⟨hl, ht, Pool.Books.start hcrew rfl (by simp) hready fun _ _ => trivial⟩
  | worked i f l ws next failed worker y hp hw hy =>
      rw [hp] at hat
      obtain ⟨hl, ht, hB⟩ := hat
      obtain ⟨ht', hB'⟩ := (C l hl).work_keeps (.of_map _ hl.nodup) hdst hop ht hB hw hy
      exact hinv _ _ _ ⟨hl, ht', hB'⟩
  | joined f l ws next failed hp hws =>
      rw [hp] at hat
      obtain ⟨hl, ht, hB⟩ := hat
      refine hinv _ _ r.job ⟨hl, ht, ?_⟩
      -- without a failure every file has been taken, and is where it should be
      rintro rfl g hg
      exact hB.over rfl hws hg
  | cleaned f l hp hmv =>
      rw [hp] at hat
      obtain ⟨hl, ht, -⟩ := hat
      refine hinv _ .ending r.job (show Outcome C _ from .inr (.inr ⟨l, hl, v, ht, .inr ?_⟩))
      exact ⟨hop ▸ hmv, r.src_tail, f, by rw [← hsrc]⟩
  | kept f l failed hp hnc =>
      rw [hp] at hat
      obtain ⟨hl, ht, -⟩ := hat
      exact hinv _ _ r.job (show Outcome C v from .inr (.inr ⟨l, hl, v, ht, .inl rfl⟩))
  | ended f hp =>
      rw [hp] at hat
      exact hinv _ _ _ hat

/-- **The rule for jobs**: at every moment of a job that runs alone, under every
schedule and whichever calls fail, the tree is as it was, as the conduct says, or
what one rename or the removal of the source has made of one of these. -/
theorem run_spec {src dst : PathBuf}
    (C : ∀ l, IsListing k t src.path l → Conduct k t op dst.path l) (h : Host) (job : Job)
    {s : FileTree Bytes × Runner}
    (hrun : Reach (alone k) Any (t, .start h op src dst job) s) : Outcome C s.1 := by
  have hinv : Inv C s :=
    hrun.inv ⟨rfl, rfl, rfl, h.nthreads_pos, show At C t .queued from rfl⟩
      fun _ _ _ hi _ hs => inv_step hi hs
  exact hinv.phase.outcome

end Conduct

end WebDavs.Mover
