/-
`write_buf` against `write_bytes`, each by its single calls of `write`.

`AutoFs` has the schedule of a `write_buf` as a list and a `write_all` as one
operation with an end. Here both are the loops they are in the source, over a
stream of answers without an end, so that "every schedule of short writes" is
every such stream. What a loop has written is `wrote`: nothing at all, or the
bytes at the place the handle stands at. `Disk.wrote_append` is what the short
writes of one chunk, and the chunks of one buffer, are put together by.
-/
import WebDavs.Upload

set_option autoImplicit false

namespace WebDavs.Posix

/-! ## Writing over a file in pieces -/

theorem length_splice (c : Bytes) (pos : Nat) (bs : Bytes) :
    (splice c pos bs).length = max c.length (pos + bs.length) := by
  simp only [splice, List.length_append, List.length_take, List.length_replicate,
    List.length_drop]
  omega

/-- What stands in the file up to the end of what was written. -/
theorem take_splice (c : Bytes) (pos : Nat) (bs : Bytes) :
    (splice c pos bs).take (pos + bs.length) =
      (c ++ List.replicate (pos - c.length) 0).take pos ++ bs := by
  have hlen : ((c ++ List.replicate (pos - c.length) 0).take pos ++ bs).length
      = pos + bs.length := by
    simp only [List.length_append, List.length_take, List.length_replicate]
    omega
  rw [splice, ← hlen, List.take_left]

/-- What stands behind it is what stood there before. -/
theorem drop_splice (c : Bytes) (pos : Nat) (bs : Bytes) (n : Nat) :
    (splice c pos bs).drop (pos + bs.length + n) = c.drop (pos + bs.length + n) := by
  have hlen : ((c ++ List.replicate (pos - c.length) 0).take pos ++ bs).length
      = pos + bs.length := by
    simp only [List.length_append, List.length_take, List.length_replicate]
    omega
  rw [splice, ← hlen, List.drop_append, hlen, List.drop_drop]
  simp only [Nat.add_sub_cancel_left]
  rw [List.drop_eq_nil_of_le (by omega), List.nil_append]

/-- Two writes, the second where the first one ended. -/
theorem splice_append (c : Bytes) (pos : Nat) (xs ys : Bytes) :
    splice (splice c pos xs) (pos + xs.length) ys = splice c pos (xs ++ ys) := by
  have hgap : pos + xs.length - (splice c pos xs).length = 0 := by
    rw [length_splice]
    omega
  have hdrop := drop_splice c pos xs ys.length
  rw [splice, hgap, List.replicate_zero, List.append_nil, take_splice, hdrop, splice,
    List.length_append, Nat.add_assoc]
  simp only [List.append_assoc]

end WebDavs.Posix

namespace WebDavs.AutoFs

open WebDavs.Posix

namespace Disk

/-- A number of calls of `write` that accepted `bs` in all. Where there was no
call the file is as it was, also when the handle stands behind its end. -/
def wrote (d : Disk) (f : Handle) (bs : Bytes) : Disk × Handle :=
  if bs = [] then (d, f) else d.write_at f bs

@[simp] theorem wrote_nil (d : Disk) (f : Handle) : d.wrote f [] = (d, f) := rfl

theorem wrote_of_ne {bs : Bytes} (h : bs ≠ []) (d : Disk) (f : Handle) :
    d.wrote f bs = d.write_at f bs := by
  rw [wrote, if_neg h]

theorem write_at_append (d : Disk) (f : Handle) (xs ys : Bytes) :
    (d.write_at f xs).1.write_at (d.write_at f xs).2 ys = d.write_at f (xs ++ ys) := by
  simp only [write_at, List.length_append, Nat.add_assoc]
  congr 2
  funext i
  by_cases hi : i = f.ino
  · simp only [hi, if_true, splice_append]
  · simp only [if_neg hi]

/-- No bytes at the end of a file change nothing. -/
theorem write_at_nil {d : Disk} {f : Handle} (h : f.pos = (d.inode f.ino).content.length) :
    d.write_at f [] = (d, f) := by
  have hinode : (d.write_at f []).1.inode = d.inode := by
    funext i
    by_cases hi : i = f.ino
    · simp [write_at, hi, h]
    · simp [write_at, hi]
  have hdisk : (d.write_at f []).1 = { d with inode := (d.write_at f []).1.inode } := rfl
  rw [hinode] at hdisk
  exact Prod.ext hdisk rfl

/-- **Calls after calls** come to the bytes of both. -/
theorem wrote_append (d : Disk) (f : Handle) (xs ys : Bytes) :
    (d.wrote f xs).1.wrote (d.wrote f xs).2 ys = d.wrote f (xs ++ ys) := by
  by_cases hx : xs = []
  · rw [hx, wrote_nil, List.nil_append]
  · by_cases hy : ys = []
    · rw [hy, wrote_nil, List.append_nil]
    · have hxy : xs ++ ys ≠ [] := by simp [hx]
      rw [wrote_of_ne hx, wrote_of_ne hy, wrote_of_ne hxy, write_at_append]

end Disk

/-! ## Buffers -/

/-- `Box<dyn Buf + Send>`: the chunks that are still to be handed out, none of them
empty. -/
structure Buf where
  chunks : List Bytes
  nonempty : ∀ c ∈ chunks, c ≠ []

namespace Buf

/-- The concatenation of the chunks. -/
def bytes (b : Buf) : Bytes := b.chunks.flatten

/-- `Buf::remaining`. -/
def remaining (b : Buf) : Nat := b.bytes.length

/-- `Buf::chunk`: the first of the chunks, empty at the end only. -/
def chunk (b : Buf) : Bytes := b.chunks.headD []

/-- The chunks without their first `n` bytes. -/
def advance_chunks : Nat → List Bytes → List Bytes
  | _, [] => []
  | n, c :: cs => if n < c.length then c.drop n :: cs else advance_chunks (n - c.length) cs

theorem advance_chunks_nonempty (n : Nat) (cs : List Bytes) (h : ∀ c ∈ cs, c ≠ []) :
    ∀ c ∈ advance_chunks n cs, c ≠ [] := by
  induction cs generalizing n with
  | nil => simp [advance_chunks]
  | cons c cs ih =>
      intro x hx
      rw [advance_chunks] at hx
      by_cases hn : n < c.length
      · rw [if_pos hn] at hx
        rcases List.mem_cons.mp hx with rfl | hmem
        · intro hnil
          have hlen := List.drop_eq_nil_iff.mp hnil
          omega
        · exact h x (List.mem_cons_of_mem _ hmem)
      · rw [if_neg hn] at hx
        exact ih (n - c.length) (fun y hy => h y (List.mem_cons_of_mem _ hy)) x hx

/-- `Buf::advance`. -/
def advance (b : Buf) (n : Nat) : Buf := ⟨advance_chunks n b.chunks,
  advance_chunks_nonempty n b.chunks b.nonempty⟩

theorem chunks_advance (b : Buf) (n : Nat) : (b.advance n).chunks = advance_chunks n b.chunks := rfl

theorem flatten_advance_chunks (n : Nat) (cs : List Bytes) :
    (advance_chunks n cs).flatten = cs.flatten.drop n := by
  induction cs generalizing n with
  | nil => simp [advance_chunks]
  | cons c cs ih =>
      rw [advance_chunks, List.flatten_cons, List.drop_append]
      by_cases hn : n < c.length
      · have hzero : n - c.length = 0 := by omega
        rw [if_pos hn, List.flatten_cons, hzero, List.drop_zero]
      · have hdrop : c.drop n = [] := List.drop_eq_nil_of_le (by omega)
        rw [if_neg hn, ih, hdrop, List.nil_append]

theorem bytes_advance (b : Buf) (n : Nat) : (b.advance n).bytes = b.bytes.drop n :=
  flatten_advance_chunks n b.chunks

theorem remaining_advance (b : Buf) (n : Nat) : (b.advance n).remaining = b.remaining - n := by
  rw [remaining, bytes_advance, List.length_drop, remaining]

/-- The chunk that is handed out is where the bytes begin. -/
theorem chunk_prefix (b : Buf) : b.chunk <+: b.bytes := by
  rcases b with ⟨_ | ⟨c, cs⟩, hne⟩
  · exact List.prefix_rfl
  · exact List.prefix_append c cs.flatten

/-- The buffer of one chunk, or of none. -/
def whole (bs : Bytes) : Buf := ⟨if bs = [] then [] else [bs], by
  intro c hc
  by_cases hbs : bs = []
  · rw [if_pos hbs] at hc
    cases hc
  · rw [if_neg hbs, List.mem_singleton] at hc
    rwa [hc]⟩

@[simp] theorem bytes_whole (bs : Bytes) : (whole bs).bytes = bs := by
  by_cases hbs : bs = []
  · simp [whole, bytes, hbs]
  · simp [whole, bytes, hbs]

theorem chunk_whole (bs : Bytes) : (whole bs).chunk = bs := by
  by_cases hbs : bs = []
  · simp [whole, chunk, hbs]
  · simp [whole, chunk, hbs]

theorem advance_whole (bs : Bytes) (n : Nat) : (whole bs).advance n = whole (bs.drop n) := by
  simp only [advance, whole, mk.injEq]
  by_cases hbs : bs = []
  · simp [hbs, advance_chunks]
  · rw [if_neg hbs, advance_chunks, advance_chunks]
    by_cases hn : n < bs.length
    · have hdrop : bs.drop n ≠ [] := by
        intro hnil
        have hlen := List.drop_eq_nil_iff.mp hnil
        omega
      rw [if_pos hn, if_neg hdrop]
    · rw [if_neg hn, if_pos (List.drop_eq_nil_of_le (by omega))]

theorem chunk_pos {b : Buf} (h : 0 < b.remaining) : 0 < b.chunk.length := by
  rcases b with ⟨_ | ⟨c, cs⟩, hne⟩
  · simp [remaining, bytes] at h
  · exact List.length_pos_iff.mpr (hne c List.mem_cons_self)

end Buf

/-! ## The two loops -/

/-- What the environment answers to the `write` calls of one operation, in order:
that many bytes accepted (at most what is offered), or an error. -/
abbrev Answers := Nat → Except Errno Nat

/-- The answers to the calls after the first one. -/
def Answers.tail (a : Answers) : Answers := fun i => a (i + 1)

/-- A call that accepts at least one byte. -/
def Accepts (r : Except Errno Nat) : Prop := ∃ n, r = .ok (n + 1)

instance (r : Except Errno Nat) : Decidable (Accepts r) :=
  match r with
  | .ok (n + 1) => isTrue ⟨n, rfl⟩
  | .ok 0 => isFalse fun ⟨_, h⟩ => by cases h
  | .error _ => isFalse fun ⟨_, h⟩ => by cases h

namespace AtomicFile

/-- The loop of `write_buf`, one `write` after the other. -/
def write_buf_calls (d : Disk) (f : Handle) (hasher : Bytes) (answers : Answers) (buf : Buf) :
    Disk × Handle × Bytes × Except FsError Unit :=
  if _h : 0 < buf.remaining then
    match answers 0 with
    -- "write returned 0 bytes"
    | .ok 0 => (d, f, hasher, .error (.io .eio))
    | .ok (n + 1) =>
      let now := buf.chunk.take (n + 1)
      let (d, f) := d.write_at f now
      write_buf_calls d f (hasher ++ now) (answers.tail) (buf.advance now.length)
    | .error e => (d, f, hasher, .error (.io e))
  else (d, f, hasher, .ok ())
termination_by buf.remaining
decreasing_by
  have hpos := Buf.chunk_pos _h
  rw [Buf.remaining_advance, List.length_take]
  omega

/-- `DavFile::write_buf`. -/
def write_buf_by (af : AtomicFile) (d : Disk) (answers : Answers) (buf : Buf) :
    AtomicFile × Disk × Except FsError Unit :=
  match af.file with
  | none => (af, d, .error .general_failure)
  | some f =>
    let remaining := buf.remaining
    let (d, f, hasher, res) := write_buf_calls d f af.hasher answers buf
    ({ af with file := some f, hasher := hasher, written := af.written + remaining }, d, res)

/-- `std::fs::File::write_all`. -/
def write_all_by (d : Disk) (f : Handle) (answers : Answers) (buf : Bytes) :
    Disk × Handle × Except FsError Unit :=
  if _h : buf = [] then (d, f, .ok ())
  else
    match answers 0 with
    -- "failed to write whole buffer"
    | .ok 0 => (d, f, .error (.io .eio))
    | .ok (n + 1) =>
      let (d, f) := d.write_at f (buf.take (n + 1))
      write_all_by d f (answers.tail) (buf.drop (n + 1))
    | .error e => (d, f, .error (.io e))
termination_by buf.length
decreasing_by
  have hpos := List.length_pos_iff.mpr _h
  rw [List.length_drop]
  omega

/-- `DavFile::write_bytes`. -/
def write_bytes_by (af : AtomicFile) (d : Disk) (answers : Answers) (buf : Bytes) :
    AtomicFile × Disk × Except FsError Unit :=
  let af := { af with hasher := af.hasher ++ buf }
  match af.file with
  | none => (af, d, .error .general_failure)
  | some f =>
    let len := buf.length
    let (d, f, res) := write_all_by d f answers buf
    ({ af with file := some f, written := af.written + len }, d, res)

/-! ## What is left after some calls -/

/-- The buffer after the first `i` calls of `write`, as far as none of them met an
error. -/
def left : Answers → Buf → Nat → Buf
  | _, buf, 0 => buf
  | answers, buf, i + 1 =>
    match answers 0 with
    | .ok n => left answers.tail (buf.advance (buf.chunk.take n).length) i
    | .error _ => buf

/-- Every call that is made while something is left accepts at least one byte. -/
def Smooth (answers : Answers) (buf : Buf) : Prop :=
  ∀ i, 0 < (left answers buf i).remaining → Accepts (answers i)

/-- The first call that fails is the `i`-th one: it meets an error or accepts
nothing, although something is left. -/
structure Stops (answers : Answers) (buf : Buf) (i : Nat) : Prop where
  before : ∀ j, j < i → Accepts (answers j)
  fails : ¬ Accepts (answers i)
  remains : 0 < (left answers buf i).remaining

theorem left_succ {answers : Answers} {n : Nat} (h : answers 0 = .ok n) (buf : Buf) (i : Nat) :
    left answers buf (i + 1) =
      left answers.tail (buf.advance (buf.chunk.take n).length) i := by
  rw [left, h]

/-- Nothing comes back into the buffer. -/
theorem left_le (answers : Answers) (buf : Buf) (i : Nat) :
    (left answers buf i).remaining ≤ buf.remaining := by
  induction i generalizing answers buf with
  | zero => exact Nat.le_refl _
  | succ i ih =>
      match ha : answers 0 with
      | .ok n =>
          have hrest := ih answers.tail (buf.advance (buf.chunk.take n).length)
          rw [Buf.remaining_advance] at hrest
          rw [left_succ ha]
          omega
      | .error e =>
          rw [left, ha]

/-- One accepting call, and then the rest of the loop. -/
theorem write_buf_calls_step {answers : Answers} {n : Nat} (h : answers 0 = .ok (n + 1))
    {buf : Buf} (hpos : 0 < buf.remaining) (d : Disk) (f : Handle) (hasher : Bytes) :
    write_buf_calls d f hasher answers buf =
      write_buf_calls (d.write_at f (buf.chunk.take (n + 1))).1
        (d.write_at f (buf.chunk.take (n + 1))).2 (hasher ++ buf.chunk.take (n + 1))
        answers.tail (buf.advance (buf.chunk.take (n + 1)).length) := by
  rw [write_buf_calls, dif_pos hpos]
  simp only [h]

/-- What an accepting call takes of the buffer, and what stays in it. -/
theorem accepted {buf : Buf} (hpos : 0 < buf.remaining) (n : Nat) :
    buf.chunk.take (n + 1) ≠ [] ∧
      buf.chunk.take (n + 1) ++ (buf.advance (buf.chunk.take (n + 1)).length).bytes = buf.bytes := by
  constructor
  · intro hnil
    have hchunk := Buf.chunk_pos hpos
    have hzero := congrArg List.length hnil
    rw [List.length_take, List.length_nil] at hzero
    omega
  · rw [Buf.bytes_advance]
    exact List.prefix_iff_eq_append.mp ((List.take_prefix _ _).trans buf.chunk_prefix)

/-- **The loop of `write_buf`** writes and hashes the same bytes, the whole buffer when
every call accepts something. -/
theorem write_buf_calls_smooth {answers : Answers} {buf : Buf} (h : Smooth answers buf) (d : Disk)
    (f : Handle) (hasher : Bytes) :
    write_buf_calls d f hasher answers buf =
      ((d.wrote f buf.bytes).1, (d.wrote f buf.bytes).2, hasher ++ buf.bytes, .ok ()) := by
  induction hm : buf.remaining using Nat.strong_induction_on
    generalizing answers buf d f hasher with
  | _ m ih =>
      by_cases hpos : 0 < buf.remaining
      · obtain ⟨n, hn⟩ := h 0 hpos
        obtain ⟨hne, hall⟩ := accepted hpos n
        have hrest : Smooth answers.tail (buf.advance (buf.chunk.take (n + 1)).length) := by
          intro i hi
          rw [← left_succ hn] at hi
          exact h (i + 1) hi
        have hless : (buf.advance (buf.chunk.take (n + 1)).length).remaining < m := by
          have hlen := List.length_pos_iff.mpr hne
          rw [Buf.remaining_advance]
          omega
        rw [write_buf_calls_step hn hpos, ← Disk.wrote_of_ne hne,
          ih _ hless hrest _ _ _ rfl, Disk.wrote_append, List.append_assoc, hall]
      · have hnil : buf.bytes = [] := List.length_eq_zero_iff.mp (Nat.eq_zero_of_not_pos hpos)
        rw [write_buf_calls, dif_neg hpos, hnil, Disk.wrote_nil, List.append_nil]

/-- The loop that stops at a failing call has written and hashed what the calls
before it accepted. -/
theorem write_buf_calls_stops {answers : Answers} {buf : Buf} {i : Nat} (h : Stops answers buf i)
    (d : Disk) (f : Handle) (hasher : Bytes) :
    ∃ bs e, bs ++ (left answers buf i).bytes = buf.bytes ∧
      write_buf_calls d f hasher answers buf =
        ((d.wrote f bs).1, (d.wrote f bs).2, hasher ++ bs, .error e) := by
  induction i generalizing answers buf d f hasher with
  | zero =>
      have hpos : 0 < buf.remaining := h.remains
      rw [write_buf_calls, dif_pos hpos]
      match ha : answers 0 with
      | .ok 0 => exact ⟨[], .io .eio, rfl, by simp⟩
      | .ok (n + 1) => exact absurd ⟨n, ha⟩ h.fails
      | .error e => exact ⟨[], .io e, rfl, by simp⟩
  | succ i ih =>
      obtain ⟨n, hn⟩ := h.before 0 (Nat.succ_pos i)
      by_cases hpos : 0 < buf.remaining
      · obtain ⟨hne, hall⟩ := accepted hpos n
        have hrest : Stops answers.tail (buf.advance (buf.chunk.take (n + 1)).length) i := by
          refine ⟨fun j hj => h.before (j + 1) (by omega), h.fails, ?_⟩
          rw [← left_succ hn]
          exact h.remains
        obtain ⟨bs, e, hbs, hrun⟩ := ih hrest (d.wrote f (buf.chunk.take (n + 1))).1
          (d.wrote f (buf.chunk.take (n + 1))).2 (hasher ++ buf.chunk.take (n + 1))
        refine ⟨buf.chunk.take (n + 1) ++ bs, e, ?_, ?_⟩
        · rw [left_succ hn, List.append_assoc, hbs, hall]
        · rw [write_buf_calls_step hn hpos, ← Disk.wrote_of_ne hne, hrun, Disk.wrote_append,
            List.append_assoc]
      · -- nothing is left from the beginning
        have hle := left_le answers buf (i + 1)
        have hremains := h.remains
        omega

/-- **Termination.** No more calls are needed than there are bytes. -/
theorem left_done {answers : Answers} {buf : Buf} (h : Smooth answers buf) :
    ∃ i, i ≤ buf.remaining ∧ (left answers buf i).remaining = 0 := by
  induction hm : buf.remaining using Nat.strong_induction_on generalizing answers buf with
  | _ m ih =>
      by_cases hpos : 0 < buf.remaining
      · obtain ⟨n, hn⟩ := h 0 hpos
        have hlen := List.length_pos_iff.mpr (accepted hpos n).1
        have hadv := Buf.remaining_advance buf (buf.chunk.take (n + 1)).length
        have hrest : Smooth answers.tail (buf.advance (buf.chunk.take (n + 1)).length) := by
          intro i hi
          rw [← left_succ hn] at hi
          exact h (i + 1) hi
        obtain ⟨i, hi, hdone⟩ := ih _ (by omega) hrest rfl
        refine ⟨i + 1, by omega, ?_⟩
        rw [left_succ hn, hdone]
      · exact ⟨0, Nat.zero_le _, Nat.eq_zero_of_not_pos hpos⟩

/-- `write_all` is the loop of `write_buf` on a buffer of one chunk. -/
theorem write_all_eq (d : Disk) (f : Handle) (hasher : Bytes) (answers : Answers) (bs : Bytes) :
    write_all_by d f answers bs =
      ((write_buf_calls d f hasher answers (Buf.whole bs)).1,
        (write_buf_calls d f hasher answers (Buf.whole bs)).2.1,
        (write_buf_calls d f hasher answers (Buf.whole bs)).2.2.2) := by
  induction hm : bs.length using Nat.strong_induction_on generalizing answers bs d f hasher with
  | _ m ih =>
      by_cases hbs : bs = []
      · rw [write_all_by, dif_pos hbs, write_buf_calls, dif_neg (by simp [Buf.remaining, hbs])]
      · have hlen := List.length_pos_iff.mpr hbs
        have hpos : 0 < (Buf.whole bs).remaining := by
          rwa [Buf.remaining, Buf.bytes_whole]
        match ha : answers 0 with
        | .ok (n + 1) =>
            have hdrop : bs.drop (bs.take (n + 1)).length = bs.drop (n + 1) := by
              rw [List.length_take, ← List.drop_eq_drop_min]
            have hless : (bs.drop (n + 1)).length < m := by
              rw [List.length_drop]
              omega
            rw [write_buf_calls_step ha hpos, Buf.chunk_whole, Buf.advance_whole, hdrop,
              ← ih _ hless _ _ _ _ _ rfl, write_all_by, dif_neg hbs]
            simp only [ha]
        | .ok 0 =>
            rw [write_all_by, dif_neg hbs, write_buf_calls, dif_pos hpos]
            simp only [ha]
        | .error e =>
            rw [write_all_by, dif_neg hbs, write_buf_calls, dif_pos hpos]
            simp only [ha]

theorem write_all_by_smooth {answers : Answers} {bs : Bytes} (h : Smooth answers (Buf.whole bs))
    (d : Disk) (f : Handle) :
    write_all_by d f answers bs = ((d.wrote f bs).1, (d.wrote f bs).2, .ok ()) := by
  rw [write_all_eq d f [], write_buf_calls_smooth h, Buf.bytes_whole]

/-! ## The schedules of `AutoFs` -/

/-- A schedule as a stream: past its end `n + 1` bytes are accepted a call. -/
def WriteSched.answers (sched : WriteSched) (n : Nat) : Answers := fun i =>
  sched.getD i (.ok (n + 1))

/-- Past the end of a schedule nothing fails. -/
theorem smooth_nil (n : Nat) (buf : Buf) : Smooth (WriteSched.answers [] n) buf := by
  intro i _
  exact ⟨n, rfl⟩

theorem dropWhile_nonempty {cs : List Bytes} (h : ∀ c ∈ cs, c ≠ []) :
    cs.dropWhile List.isEmpty = cs := by
  cases cs with
  | nil => rfl
  | cons c cs =>
      have hc : c.isEmpty = false := List.isEmpty_eq_false_iff.mpr (h c List.mem_cons_self)
      rw [List.dropWhile_cons, hc, if_neg Bool.false_ne_true]

/-- The two ways to go on behind a part of the first chunk. -/
theorem dropWhile_drop {buf : Buf} {chunk : Bytes} {rest : List Bytes}
    (h : buf.chunks = chunk :: rest) (n : Nat) :
    (chunk.drop n :: rest).dropWhile List.isEmpty =
      (buf.advance (chunk.take n).length).chunks := by
  have hrest : ∀ c ∈ rest, c ≠ [] := fun c hc =>
    buf.nonempty c (by rw [h]; exact List.mem_cons_of_mem _ hc)
  rw [Buf.chunks_advance, h, Buf.advance_chunks, List.length_take]
  by_cases hn : n < chunk.length
  · have hmin : min n chunk.length = n := by omega
    have hdrop : (chunk.drop n).isEmpty = false := by
      rw [List.isEmpty_eq_false_iff, ne_eq, List.drop_eq_nil_iff]
      omega
    rw [hmin, if_pos hn, List.dropWhile_cons, hdrop, if_neg Bool.false_ne_true]
  · have hmin : min n chunk.length = chunk.length := by omega
    rw [hmin, if_neg (Nat.lt_irrefl _), Nat.sub_self, List.drop_eq_nil_of_le (by omega),
      List.dropWhile_cons, List.isEmpty_nil, if_pos rfl, dropWhile_nonempty hrest]
    cases rest with
    | nil => rfl
    | cons c cs =>
        have hc := List.length_pos_iff.mpr (hrest c List.mem_cons_self)
        rw [Buf.advance_chunks, if_pos hc, List.drop_zero]

/-- With the handle at the end of the file the loop of `AutoFs` is the loop by single
calls. -/
theorem write_buf_loop_eq {d : Disk} {f : Handle} (h : AtEnd d f) (hasher : Bytes)
    (sched : WriteSched) (n : Nat) (chunks : List Bytes) (buf : Buf)
    (hb : chunks.dropWhile List.isEmpty = buf.chunks) :
    write_buf_loop d f hasher sched chunks =
      write_buf_calls d f hasher (sched.answers n) buf := by
  induction sched generalizing d f hasher chunks buf with
  | nil =>
      have hbytes : chunks.flatten = buf.bytes := by
        rw [Buf.bytes, ← hb, flatten_dropWhile_isEmpty]
      rw [write_buf_loop, write_buf_calls_smooth (smooth_nil n buf), hbytes]
      by_cases hnil : buf.bytes = []
      · rw [hnil, Disk.wrote_nil, Disk.write_at_nil h]
      · rw [Disk.wrote_of_ne hnil]
  | cons r sched ih =>
      rw [write_buf_loop, hb]
      match hc : buf.chunks with
      | [] =>
          -- nothing is left: both loops stop
          have hpos : ¬ 0 < buf.remaining := by simp [Buf.remaining, Buf.bytes, hc]
          rw [write_buf_calls, dif_neg hpos]
      | chunk :: rest =>
          have hchunk : buf.chunk = chunk := by rw [Buf.chunk, hc, List.headD_cons]
          have hne : 0 < chunk.length :=
            List.length_pos_iff.mpr (buf.nonempty chunk (by rw [hc]; exact List.mem_cons_self))
          have hpos : 0 < buf.remaining := by
            rw [Buf.remaining, Buf.bytes, hc, List.flatten_cons, List.length_append]
            omega
          match r with
          | .error e =>
              rw [write_buf_calls, dif_pos hpos]
              rfl
          | .ok 0 =>
              rw [write_buf_calls, dif_pos hpos]
              rfl
          | .ok (m + 1) =>
              -- some bytes taken: both go on with what is left, from the new end of the file
              have hfirst : WriteSched.answers (.ok (m + 1) :: sched) n 0 = .ok (m + 1) := rfl
              have hend := (write_at_appended h (chunk.take (m + 1))).atEnd
              rw [write_buf_calls_step hfirst hpos, hchunk]
              exact ih hend _ _ _ (dropWhile_drop hc (m + 1))

/-- `write_buf` of `AutoFs` and `write_buf` by single calls, on an upload: its handle
stands at the end of the temp file. -/
theorem write_buf_eq {af : AtomicFile} {d : Disk} (h : ∀ f, af.file = some f → AtEnd d f)
    (sched : WriteSched) (n : Nat) (chunks : List Bytes) (buf : Buf)
    (hb : chunks.dropWhile List.isEmpty = buf.chunks) :
    af.write_buf d chunks sched = af.write_buf_by d (sched.answers n) buf := by
  have hbytes : chunks.flatten = buf.bytes := by
    rw [Buf.bytes, ← hb, flatten_dropWhile_isEmpty]
  match hf : af.file with
  | none => simp only [write_buf, write_buf_by, hf]
  | some f =>
      simp only [write_buf, write_buf_by, hf, write_buf_loop_eq (h f hf) af.hasher sched n chunks
        buf hb, hbytes, Buf.remaining]

/-! ## The agreement -/

/-- **`write_buf` and `write_bytes` agree.** With the file open and every call of
`write` accepting something, `write_buf` makes no more calls than there are bytes
and leaves the file, the hasher and the counter as `write_bytes` leaves them for
the concatenation of the chunks. When a call fails or accepts nothing,
`write_buf` returns an error, and the hasher has gone over the bytes that reached
the file. -/
theorem write_buf_agrees {af : AtomicFile} {f : Handle} (hf : af.file = some f) (d : Disk)
    (buf : Buf) :
    (∀ answers answers', Smooth answers buf → Smooth answers' (Buf.whole buf.bytes) →
      (∃ i, i ≤ buf.remaining ∧ (left answers buf i).remaining = 0) ∧
        af.write_buf_by d answers buf = af.write_bytes_by d answers' buf.bytes ∧
        (af.write_buf_by d answers buf).2.2 = .ok ()) ∧
    ∀ answers i, Stops answers buf i →
      ∃ bs e, bs ++ (left answers buf i).bytes = buf.bytes ∧
        af.write_buf_by d answers buf =
          ({ af with
              file := some (d.wrote f bs).2
              hasher := af.hasher ++ bs
              written := af.written + buf.remaining }, (d.wrote f bs).1, .error e) := by
  constructor
  · intro answers answers' h h'
    refine ⟨left_done h, ?_, ?_⟩
    · simp only [write_buf_by, write_bytes_by, hf, write_buf_calls_smooth h, write_all_by_smooth h']
      rfl
    · simp only [write_buf_by, hf, write_buf_calls_smooth h]
  · intro answers i h
    obtain ⟨bs, e, hbs, hrun⟩ := write_buf_calls_stops h d f af.hasher
    refine ⟨bs, e, hbs, ?_⟩
    simp only [write_buf_by, hf, hrun]

/-- Two chunks of two bytes, one byte a call, against one `write_all` that gets
everything through at once; and the third call refused. -/
theorem write_buf_agrees_short :
    ∃ (af : AtomicFile) (f : Handle) (d : Disk) (buf : Buf) (a b c : Answers),
      (af.file = some f ∧ buf.bytes = [1, 2, 3, 4] ∧ Smooth a buf ∧
        Smooth b (Buf.whole buf.bytes) ∧ Stops c buf 2) ∧
      af.write_buf_by d a buf = af.write_bytes_by d b buf.bytes ∧
      ∃ bs e, bs ++ (left c buf 2).bytes = buf.bytes ∧ (af.write_buf_by d c buf).2.2 = .error e := by
  let f : Handle := ⟨0, 0⟩
  let af := AtomicFile.new (.abs ["t"]) (.abs ["f"]) none none f false
  let d : Disk := ⟨FileTree.empty, fun _ => ⟨[], none⟩, 1, by
    intro l i h
    simp [FileTree.empty] at h⟩
  let buf : Buf := ⟨[[1, 2], [3, 4]], by decide⟩
  let c : Answers := fun i => if i < 2 then .ok 1 else .error .enospc
  have ha : Smooth (fun _ => .ok 1) buf := fun _ _ => ⟨0, rfl⟩
  have hb : Smooth (fun _ => .ok 4) (Buf.whole buf.bytes) := fun _ _ => ⟨3, rfl⟩
  have hc : Stops c buf 2 := by
    refine ⟨fun j hj => ⟨0, if_pos hj⟩, ?_, by decide⟩
    rintro ⟨n, hn⟩
    cases hn
  obtain ⟨hagree, hstop⟩ := @write_buf_agrees af f rfl d buf
  obtain ⟨bs, e, hbs, hrun⟩ := hstop c 2 hc
  exact ⟨af, f, d, buf, _, _, c, ⟨rfl, rfl, ha, hb, hc⟩, (hagree _ _ ha hb).2.1, bs, e, hbs,
    by rw [hrun]⟩

end AtomicFile

end WebDavs.AutoFs
