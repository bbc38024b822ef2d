/-
`src/autofs.rs`: `OC-Checksum` values, and what `commit` makes of them.

`parse_sha256_checksum` answers `None` both for another algorithm and for a value it
cannot read, and `commit` takes that for nothing to verify. So a digest that is
spelled right is always understood (`checksum_accepted`), but one that is spelled
wrong is not refused (`checksum_enforced_iff`).
-/
import WebDavs.Codec
import WebDavs.Cut
import WebDavs.UploadAtomic

set_option autoImplicit false

namespace WebDavs.AutoFs

open WebDavs.Posix WebDavs.Steps WebDavs.Codec WebDavs.Cut

/-! ## Trimming -/

/-- Nothing but white space. -/
def Blank (w : List Char) : Prop := ∀ c ∈ w, is_whitespace c = true

instance (w : List Char) : Decidable (Blank w) :=
  decidable_of_iff (w.all is_whitespace = true) List.all_eq_true

theorem dropWhile_blank {w : List Char} (h : Blank w) (s : List Char) :
    (w ++ s).dropWhile is_whitespace = s.dropWhile is_whitespace :=
  List.dropWhile_append_of_pos h

theorem trim_blank_append {w : List Char} (h : Blank w) (s : List Char) : trim (w ++ s) = trim s := by
  unfold trim
  rw [dropWhile_blank h]

theorem trim_append_blank {w : List Char} (h : Blank w) (s : List Char) : trim (s ++ w) = trim s := by
  have hrev : Blank w.reverse := fun c hc => h c (List.mem_reverse.mp hc)
  unfold trim
  rw [List.dropWhile_append]
  split
  · rename_i he
    have hw := dropWhile_blank h []
    rw [List.append_nil] at hw
    rw [List.isEmpty_iff.mp he, hw]
    rfl
  · rw [List.reverse_append, dropWhile_blank hrev]

/-- Text without white space stays. -/
theorem trim_of_no_blank {s : List Char} (h : ∀ c ∈ s, is_whitespace c = false) : trim s = s := by
  have hdrop : ∀ t : List Char, (∀ c ∈ t, is_whitespace c = false) →
    t.dropWhile is_whitespace = t := by
    intro t ht
    cases t with
    | nil => rfl
    | cons a t => rw [List.dropWhile_cons_of_neg (by simp [ht a List.mem_cons_self])]
  unfold trim
  rw [hdrop s h, hdrop _ fun c hc => h c (List.mem_reverse.mp hc), List.reverse_reverse]

/-- What is dropped at one end ends at the first character that is kept. -/
theorem dropWhile_append_cons {p : Char → Bool} {c : Char} (hc : p c = false) (s r : List Char) :
    (s ++ c :: r).dropWhile p = s.dropWhile p ++ c :: r := by
  rw [List.dropWhile_append]
  split
  · rename_i he
    rw [List.isEmpty_iff.mp he, List.dropWhile_cons_of_neg (by simp [hc]), List.nil_append]
  · rfl

/-- Trimming does not move the colon. -/
theorem trim_colon (alg rest : List Char) : trim (alg ++ ':' :: rest)
    = alg.dropWhile is_whitespace ++ ':' :: (rest.reverse.dropWhile is_whitespace).reverse := by
  have hc : is_whitespace ':' = false := by decide
  unfold trim
  rw [dropWhile_append_cons hc, List.reverse_append, List.reverse_cons, List.append_assoc,
    List.singleton_append, dropWhile_append_cons hc, List.reverse_append, List.reverse_cons,
    List.reverse_reverse, List.append_assoc, List.singleton_append]

theorem split_once_eq_some {c : Char} {s a r : List Char} :
    split_once c s = some (a, r) ↔ c ∉ a ∧ s = a ++ c :: r := by
  unfold split_once
  constructor
  · intro h
    rcases dropWhile_ne_cases s c with ⟨-, hd⟩ | ⟨a', r', ha, hs, htake, hd⟩
    · rw [hd] at h
      cases h
    · rw [hd, htake] at h
      cases h
      exact ⟨ha, hs⟩
  · rintro ⟨ha, rfl⟩
    rw [dropWhile_ne ha (.inr rfl), takeWhile_ne ha (.inr rfl)]

/-- What the parser reads of a value with a colon. -/
theorem parse_eq (c : Crates) {raw : String} {alg rest : List Char}
    (h : split_once ':' raw.toList = some (alg, rest)) :
    parse_sha256_checksum c raw =
      if eq_ignore_ascii_case (alg.dropWhile is_whitespace) "sha256".toList then
        (c.hex_decode (String.ofList (trim rest))).or (c.base64_decode (String.ofList (trim rest)))
      else none := by
  obtain ⟨halg, hraw⟩ := split_once_eq_some.mp h
  have hsplit : split_once ':' (trim raw.toList) = some (alg.dropWhile is_whitespace,
      (rest.reverse.dropWhile is_whitespace).reverse) := by
    rw [split_once_eq_some, hraw, trim_colon]
    exact ⟨fun hm => halg (List.dropWhile_subset _ hm), rfl⟩
  have htrim : trim (rest.reverse.dropWhile is_whitespace).reverse = trim rest := by
    have hb : Blank (rest.reverse.takeWhile is_whitespace).reverse := fun c hc =>
      List.all_eq_true.mp List.all_takeWhile c (List.mem_reverse.mp hc)
    rw [← trim_append_blank hb, ← List.reverse_append, List.takeWhile_append_dropWhile,
      List.reverse_reverse]
  unfold parse_sha256_checksum
  rw [hsplit]
  dsimp only
  rw [htrim]
  split
  · cases c.hex_decode (String.ofList (trim rest)) with
    | none => rfl
    | some b => rfl
  · rfl

/-! ## Spelled digests -/

/-- What the two decoders are relied on for: they read what is written in their
encodings, and nothing else. -/
structure Crates.Right (c : Crates) : Prop where
  hex : ∀ s bs, c.hex_decode s = some bs ↔ s.toList.map Char.toLower = Codec.hex_encode bs
  base64 : ∀ s bs, c.base64_decode s = some bs ↔ s.toList = base64_encode bs

/-- A text is the bytes in hexadecimal, in any mix of letter cases, or in base64. -/
def Spells (val : List Char) (bs : Bytes) : Prop :=
  val.map Char.toLower = hex_encode bs ∨ val = base64_encode bs

/-- White space has no lower case. -/
theorem toLower_of_whitespace {c : Char} (h : is_whitespace c = true) : c.toLower = c := by
  refine dif_neg ?_
  rintro ⟨h₁, h₂⟩
  have h₁ : 65 ≤ c.toNat := UInt32.le_iff_toNat_le.mp h₁
  have h₂ : c.toNat ≤ 90 := UInt32.le_iff_toNat_le.mp h₂
  unfold is_whitespace at h
  simp at h
  omega

theorem Spells.no_blank {val : List Char} {bs : Bytes} (h : Spells val bs) :
    ∀ c ∈ val, is_whitespace c = false := by
  intro c hc
  rcases h with h | rfl
  · have hmem : c.toLower ∈ hex_encode bs := by
      rw [← h]
      exact List.mem_map_of_mem hc
    obtain ⟨n, hn, he⟩ := mem_hex_encode hmem
    cases hw : is_whitespace c with
    | false => rfl
    | true =>
        rw [toLower_of_whitespace hw] at he
        rw [he, (by decide : ∀ n < 16, is_whitespace n.digitChar = false) n hn] at hw
        cases hw
  · have hall : (('=' :: alphabet).all fun c => !is_whitespace c) = true := by decide
    simpa using List.all_eq_true.mp hall c (mem_base64_encode hc)

section

variable {c : Crates} (hc : c.Right)

include hc

/-- A digest spelled right is read right: text with padding is not hexadecimal. -/
theorem read_spelled {val : List Char} {d : Bytes} (hd : d.length = 32) (h : Spells val d) :
    (c.hex_decode (String.ofList val)).or (c.base64_decode (String.ofList val)) = some d := by
  rcases h with h | rfl
  · rw [(hc.hex _ d).mpr (by rwa [String.toList_ofList])]
    rfl
  · have hnone : c.hex_decode (String.ofList (base64_encode d)) = none := by
      cases hx : c.hex_decode (String.ofList (base64_encode d)) with
      | none => rfl
      | some us =>
          have hus := (hc.hex _ us).mp hx
          rw [String.toList_ofList] at hus
          have hread := hex_decode_eq_some.mpr hus
          rw [hex_decode_base64 (by omega)] at hread
          cases hread
    rw [hnone, (hc.base64 _ d).mpr String.toList_ofList]
    rfl

/-- What is read is spelled so. -/
theorem spells_of_read {val : List Char} {bs : Bytes}
    (h : (c.hex_decode (String.ofList val)).or (c.base64_decode (String.ofList val)) = some bs) :
    Spells val bs := by
  rcases Option.or_eq_some_iff.mp h with h | ⟨-, h⟩
  · have hs := (hc.hex _ bs).mp h
    rw [String.toList_ofList] at hs
    exact .inl hs
  · have hs := (hc.base64 _ bs).mp h
    rw [String.toList_ofList] at hs
    exact .inr hs

/-- Text that spells anything is read. -/
theorem read_isSome {val : List Char} {bs : Bytes} (h : Spells val bs) :
    ((c.hex_decode (String.ofList val)).or (c.base64_decode (String.ofList val))).isSome := by
  rw [Option.isSome_or, Bool.or_eq_true]
  rcases h with h | h
  · rw [(hc.hex _ bs).mpr (by rwa [String.toList_ofList])]
    exact .inl rfl
  · rw [(hc.base64 _ bs).mpr (by rwa [String.toList_ofList])]
    exact .inr rfl

end

/-! ## A right digest is understood -/

/-- A header value that names the digest `d`, with white space around it and behind
the colon. -/
def Announces (raw : String) (d : Bytes) : Prop :=
  ∃ w₁ alg w₂ val w₃, Blank w₁ ∧ Blank w₂ ∧ Blank w₃ ∧
    alg.map Char.toLower = "sha256".toList ∧ Spells val d ∧
    raw.toList = w₁ ++ alg ++ ':' :: (w₂ ++ val ++ w₃)

/-- A spelling of the algorithm's name has letters and digits only. -/
theorem alg_plain {alg : List Char} (h : alg.map Char.toLower = "sha256".toList) :
    ∀ c ∈ alg, is_whitespace c = false ∧ c ≠ ':' := by
  intro c hc
  have hmem : c.toLower ∈ "sha256".toList := by
    rw [← h]
    exact List.mem_map_of_mem hc
  have hall : ∀ x ∈ "sha256".toList, is_whitespace x = false ∧ x ≠ ':' := by
    have h : ("sha256".toList.all fun x => !is_whitespace x && decide (x ≠ ':')) = true := by decide
    intro x hx
    simpa using List.all_eq_true.mp h x hx
  refine ⟨?_, ?_⟩
  · cases hw : is_whitespace c with
    | false => rfl
    | true =>
        rw [toLower_of_whitespace hw] at hmem
        rw [(hall c hmem).1] at hw
        cases hw
  · rintro rfl
    exact (hall _ hmem).2 (by decide)

theorem parse_announced {c : Crates} (hc : c.Right) {d : Bytes} (hd : d.length = 32) {raw : String}
    (h : Announces raw d) : parse_sha256_checksum c raw = some d := by
  obtain ⟨w₁, alg, w₂, val, w₃, hw₁, hw₂, hw₃, halg, hval, hraw⟩ := h
  have hplain := alg_plain halg
  have hcolon : ':' ∉ w₁ ++ alg := by
    rw [List.mem_append, not_or]
    exact ⟨fun hm => absurd (hw₁ _ hm) (by decide), fun hm => (hplain _ hm).2 rfl⟩
  rw [parse_eq c (split_once_eq_some.mpr ⟨hcolon, hraw⟩), dropWhile_blank hw₁,
    trim_append_blank hw₃, trim_blank_append hw₂, trim_of_no_blank hval.no_blank]
  have halg' : alg.dropWhile is_whitespace = alg := by
    cases alg with
    | nil => rfl
    | cons a alg => rw [List.dropWhile_cons_of_neg (by simp [(hplain a List.mem_cons_self).1])]
  have hlow : "sha256".toList.map Char.toLower = "sha256".toList := by decide
  rw [halg', if_pos (by rw [eq_ignore_ascii_case, hlow, halg, decide_eq_true rfl]),
    read_spelled hc hd hval]

/-- **A digest that is spelled right is understood**: it is read as the bytes it
stands for, so no two digests are read alike, and `commit` does not take it for
another one. -/
theorem checksum_accepted (c : Crates) (hc : c.Right) (d : Bytes) (hd : d.length = 32) (raw : String)
    (h : Announces raw d) :
    parse_sha256_checksum c raw = some d ∧
      (∀ raw' d', d'.length = 32 → Announces raw' d' →
        parse_sha256_checksum c raw' = parse_sha256_checksum c raw → d' = d) ∧
      ∀ af : AtomicFile, af.expected_checksum = some raw → c.sha256 af.hasher = d →
        af.checksum_mismatch c = false := by
  have hp := parse_announced hc hd h
  refine ⟨hp, ?_, ?_⟩
  · intro raw' d' hd' h' heq
    rw [parse_announced hc hd' h', hp] at heq
    exact Option.some.inj heq
  · intro af haf hsha
    unfold AtomicFile.checksum_mismatch
    rw [haf, Option.bind_some, hp, hsha]
    simp

/-- The crates, as far as the examples below ask for them. -/
def standard : Crates where
  sha256 := digests.sha256
  hex_encode bs := String.ofList (Codec.hex_encode bs)
  hex_decode s := Codec.hex_decode s.toList
  base64_decode s := Codec.base64_decode s.toList

theorem standard_right : standard.Right :=
  ⟨fun _ _ => hex_decode_eq_some, fun _ _ => base64_decode_eq_some⟩

/-- The digest of one byte, in base64 and with blanks around it. -/
theorem checksum_accepted_base64 :
    parse_sha256_checksum standard " Sha256: S/USLzRFVMU73i67jNK349FgCtYxw4Wl18ziPHeFRZo= "
      = some (digests.sha256 [1]) :=
  (checksum_accepted standard standard_right (digests.sha256 [1]) (by decide) _
    ⟨[' '], "Sha256".toList, [' '], "S/USLzRFVMU73i67jNK349FgCtYxw4Wl18ziPHeFRZo=".toList, [' '],
      by decide, by decide, by decide, by decide, .inr (by decide +kernel), by decide⟩).1

/-! ## A wrong digest is not always refused -/

/-- The loop of `write_buf` hashes the whole buffer when it succeeds. -/
theorem write_buf_loop_hash {d : Disk} {f : Handle} {hasher : Bytes} {sched : AtomicFile.WriteSched}
    {chunks : List Bytes}
    (h : (AtomicFile.write_buf_loop d f hasher sched chunks).2.2.2 = .ok ()) :
    (AtomicFile.write_buf_loop d f hasher sched chunks).2.2.1 = hasher ++ chunks.flatten := by
  induction sched generalizing d f hasher chunks with
  | nil => rfl
  | cons r sched ih =>
      rw [← AtomicFile.flatten_dropWhile_isEmpty chunks]
      unfold AtomicFile.write_buf_loop at h ⊢
      split at h
      · rename_i hnil
        simp [hnil]
      · rename_i chunk rest hcons
        split at h
        · cases h
        · rename_i n
          split at h
          · cases h
          · rename_i hn
            dsimp only at h
            rw [hcons]
            dsimp only
            rw [if_neg hn, ih h, List.flatten_cons, List.flatten_cons, List.append_assoc,
              ← List.append_assoc (chunk.take n), List.take_append_drop]

/-- The upload `af₀` after writes that brought the bytes `sent`, and perhaps commits
that did not commit it. Who else writes to the disk meanwhile does not matter. -/
inductive Received (c : Crates) (af₀ : AtomicFile) : Bytes → AtomicFile → Prop where
  | opened : Received c af₀ [] af₀
  | wrote {sent : Bytes} {af : AtomicFile} (d : Disk) (call : AtomicFile.WriteCall)
      (h : Received c af₀ sent af) (hok : (af.write d call).2.2 = .ok ()) :
      Received c af₀ (sent ++ call.body) (af.write d call).1
  | tried {sent : Bytes} {af : AtomicFile} (k : Kernel) (d : Disk) (fault : AtomicFile.CommitFault)
      (h : Received c af₀ sent af) : Received c af₀ sent (af.commit k c d fault).1

/-- A write that succeeds is counted and hashed. -/
theorem write_received {af : AtomicFile} {d : Disk} {call : AtomicFile.WriteCall}
    (h : (af.write d call).2.2 = .ok ()) :
    (af.write d call).1.hasher = af.hasher ++ call.body ∧
      (af.write d call).1.written = af.written + call.body.length ∧
      AtomicFile.SameUpload af (af.write d call).1 := by
  cases call with
  | bytes buf fault =>
      simp only [AtomicFile.write, AtomicFile.write_bytes] at h ⊢
      split at h
      · cases h
      · rename_i f hf
        cases fault with
        | none => exact ⟨rfl, rfl, ⟨rfl, rfl, rfl, rfl, rfl, rfl⟩⟩
        | some e => cases h
  | buf chunks sched =>
      simp only [AtomicFile.write, AtomicFile.write_buf] at h ⊢
      split at h
      · cases h
      · rename_i f hf
        exact ⟨write_buf_loop_hash h, rfl, ⟨rfl, rfl, rfl, rfl, rfl, rfl⟩⟩

theorem received_spec {c : Crates} {af₀ af : AtomicFile} {sent : Bytes} (h : Received c af₀ sent af)
    (hhash : af₀.hasher = []) (hwritten : af₀.written = 0) :
    af.hasher = sent ∧ af.written = sent.length ∧ af.expected_checksum = af₀.expected_checksum ∧
      af.expected_size = af₀.expected_size ∧ af.fsync = af₀.fsync := by
  induction h with
  | opened => exact ⟨hhash, hwritten, rfl, rfl, rfl⟩
  | wrote d call h hok ih =>
      obtain ⟨h₁, h₂, h₃, h₄, h₅⟩ := ih
      obtain ⟨hh, hw, hsame⟩ := write_received hok
      refine ⟨by rw [hh, h₁], ?_, hsame.expected_checksum.trans h₃, hsame.expected_size.trans h₄,
        hsame.fsync.trans h₅⟩
      rw [hw, h₂, List.length_append]
  | tried k d fault h ih =>
      obtain ⟨h₁, h₂, h₃, h₄, h₅⟩ := ih
      obtain ⟨-, -, hsize, hck, hsync, hhash', hw, -⟩ := AtomicFile.commit_keeps k c _ d fault
      exact ⟨hhash'.trans h₁, hw.trans h₂, hck.trans h₃, hsize.trans h₄, hsync.trans h₅⟩

/-- No white space between the algorithm and the colon. -/
def Tight (alg : List Char) : Prop := ∀ c ∈ alg.getLast?, is_whitespace c = false

/-- The name is compared untrimmed at this end. -/
theorem alg_matches_iff {alg : List Char}
    (h : eq_ignore_ascii_case (trim alg) "sha256".toList = true) :
    eq_ignore_ascii_case (alg.dropWhile is_whitespace) "sha256".toList = true ↔ Tight alg := by
  have hlow : "sha256".toList.map Char.toLower = "sha256".toList := by decide
  unfold eq_ignore_ascii_case at h ⊢
  rw [hlow, decide_eq_true_eq] at h ⊢
  have hplain := alg_plain h
  -- what is dropped at the end
  obtain ⟨w, hw, ht⟩ : ∃ w, Blank w ∧ alg.dropWhile is_whitespace = trim alg ++ w := by
    refine ⟨((alg.dropWhile is_whitespace).reverse.takeWhile is_whitespace).reverse, ?_, ?_⟩
    · intro c hc
      exact List.all_eq_true.mp List.all_takeWhile c (List.mem_reverse.mp hc)
    · unfold trim
      rw [← List.reverse_append, List.takeWhile_append_dropWhile, List.reverse_reverse]
  have hlen : (trim alg).length = 6 := by
    have := congrArg List.length h
    rwa [List.length_map] at this
  have hne : alg.dropWhile is_whitespace ≠ [] := by
    intro he
    rw [he] at ht
    have := congrArg List.length ht
    rw [List.length_nil, List.length_append] at this
    omega
  have hlast : alg.getLast? = (alg.dropWhile is_whitespace).getLast? := by
    conv_lhs => rw [← List.takeWhile_append_dropWhile (p := is_whitespace) (l := alg)]
    exact List.getLast?_append_of_ne_nil _ hne
  unfold Tight
  rw [hlast, ht]
  constructor
  · intro heq c hc
    have hl := congrArg List.length heq
    rw [List.length_map, List.length_append, hlen] at hl
    have hnil : w = [] := List.length_eq_zero_iff.mp (by simpa using hl)
    rw [hnil, List.append_nil] at hc
    exact (hplain c (List.mem_of_getLast? hc)).1
  · intro htight
    rcases List.eq_nil_or_concat w with rfl | ⟨v, a, rfl⟩
    · rw [List.append_nil, h]
    · rw [List.concat_eq_append] at hw htight
      have ha := htight a (by simp)
      rw [hw a (by simp)] at ha
      cases ha

/-- What `commit` does when the value's digest is, or is not, that of the bytes: it
renames only if it is, and else fails and changes nothing. -/
def Enforced (k : Kernel) (c : Crates) (af : AtomicFile) (d : Disk) (fault : AtomicFile.CommitFault)
    (val : List Char) (sent : Bytes) : Prop :=
  ((af.commit k c d fault).1.committed = true → Spells val (c.sha256 sent)) ∧
    (¬ Spells val (c.sha256 sent) →
      (∃ e, (af.commit k c d fault).2.2 = .error e) ∧ (af.commit k c d fault).2.1 = d)

/-- What `commit` can fail on. -/
theorem commit_fails_iff (k : Kernel) (c : Crates) (af : AtomicFile) (d : Disk)
    (fault : AtomicFile.CommitFault) (hnew : af.committed = false) :
    (∃ e, (af.commit k c d fault).2.2 = .error e) ↔
      af.checksum_mismatch c = true ∨
        (af.fsync = true ∧ af.file.isSome = true ∧ fault.sync ≠ none) ∨
        (af.should_commit = true ∧
          ∃ e, d.rename k af.temp_path af.target_path fault.rename = .error e) := by
  -- the fault of `sync_data` counts only where it is called
  have hsync : (if af.fsync && af.file.isSome then fault.sync else none) = none ↔
      ¬ (af.fsync = true ∧ af.file.isSome = true ∧ fault.sync ≠ none) := by
    by_cases h : (af.fsync && af.file.isSome) = true
    · rw [if_pos h]
      simp_all
    · rw [if_neg h]
      simp_all
  have hcase := AtomicFile.commit_cases k c af d fault
  revert hcase
  generalize af.commit k c d fault = r
  intro hcase
  cases hcase with
  | again h => exact absurd h (by simp [hnew])
  | mismatch h hm => exact ⟨fun _ => .inl hm, fun _ => ⟨_, rfl⟩⟩
  | unsynced h hm e hs =>
      refine ⟨fun _ => .inr (.inl ?_), fun _ => ⟨_, rfl⟩⟩
      by_contra hno
      rw [hsync.mpr hno] at hs
      cases hs
  | incomplete h hm hs hw =>
      constructor
      · rintro ⟨e, he⟩
        cases he
      · rintro (h₁ | h₁ | ⟨h₁, -⟩)
        · rw [hm] at h₁
          cases h₁
        · exact absurd h₁ (hsync.mp hs)
        · rw [hw] at h₁
          cases h₁
  | unrenamed h hm hs hw e hr => exact ⟨fun _ => .inr (.inr ⟨hw, e, hr⟩), fun _ => ⟨_, rfl⟩⟩
  | renamed h hm hs hw d' hr =>
      constructor
      · rintro ⟨e, he⟩
        cases he
      · rintro (h₁ | h₁ | ⟨-, e, h₁⟩)
        · rw [hm] at h₁
          cases h₁
        · exact absurd h₁ (hsync.mp hs)
        · rw [hr] at h₁
          cases h₁

/-- When it fails it has changed nothing. -/
theorem commit_failed {k : Kernel} {c : Crates} {af : AtomicFile} {d : Disk}
    {fault : AtomicFile.CommitFault} {e : FsError} (h : (af.commit k c d fault).2.2 = .error e) :
    (af.commit k c d fault).1.committed = false ∧ (af.commit k c d fault).2.1 = d := by
  have hcase := AtomicFile.commit_cases k c af d fault
  revert hcase h
  generalize af.commit k c d fault = r
  intro h hcase
  cases hcase with
  | again h' => cases h
  | mismatch h' hm => exact ⟨h', rfl⟩
  | unsynced h' hm e hs => exact ⟨h', rfl⟩
  | incomplete h' hm hs hw => cases h
  | unrenamed h' hm hs hw e hr => exact ⟨h', rfl⟩
  | renamed h' hm hs hw d' hr => cases h

theorem enforced_iff (k : Kernel) (c : Crates) (af : AtomicFile) (d : Disk)
    (fault : AtomicFile.CommitFault) (val : List Char) (sent : Bytes) :
    Enforced k c af d fault val sent ↔
      Spells val (c.sha256 sent) ∨ ∃ e, (af.commit k c d fault).2.2 = .error e := by
  constructor
  · intro h
    by_cases hs : Spells val (c.sha256 sent)
    · exact .inl hs
    · exact .inr (h.2 hs).1
  · rintro (hs | ⟨e, he⟩)
    · exact ⟨fun _ => hs, fun hn => absurd hs hn⟩
    · obtain ⟨hcom, hd⟩ := commit_failed he
      refine ⟨fun hc => ?_, fun _ => ⟨⟨e, he⟩, hd⟩⟩
      rw [hcom] at hc
      cases hc

/-- When the value's digest is another one, `commit` sees it if it can read the
value. -/
theorem mismatch_iff {c : Crates} (hc : c.Right) {af : AtomicFile} {raw : String}
    {alg rest : List Char} (hck : af.expected_checksum = some raw)
    (hsplit : split_once ':' raw.toList = some (alg, rest))
    (halg : eq_ignore_ascii_case (trim alg) "sha256".toList = true)
    (hno : ¬ Spells (trim rest) (c.sha256 af.hasher)) :
    af.checksum_mismatch c = true ↔ Tight alg ∧ ∃ bs, Spells (trim rest) bs := by
  unfold AtomicFile.checksum_mismatch
  rw [hck, Option.bind_some, parse_eq c hsplit]
  by_cases ht : Tight alg
  · rw [if_pos ((alg_matches_iff halg).mpr ht)]
    split
    · rename_i hnone
      refine ⟨fun h => (by cases h), ?_⟩
      rintro ⟨-, bs, hbs⟩
      have hsome := read_isSome hc hbs
      rw [hnone] at hsome
      cases hsome
    · rename_i bs hbs
      have hsp := spells_of_read hc hbs
      refine ⟨fun _ => ⟨ht, bs, hsp⟩, fun _ => ?_⟩
      rw [decide_eq_true_eq]
      rintro rfl
      exact hno hsp
  · rw [if_neg fun hm => ht ((alg_matches_iff halg).mp hm)]
    exact ⟨fun h => (by cases h), fun h => absurd h.1 ht⟩

/-- **A digest that does not match is never accepted**, exactly when the value can be
read: no white space before the colon, and behind it the digest of something in one
of the two encodings. Otherwise it is a matter of luck: the value is right although
nobody has read it, or something else fails. -/
theorem checksum_enforced_iff (c : Crates) (hc : c.Right) (k : Kernel) (fs : AutoMkcolFs)
    (d₀ d₁ : Disk) (path : List String) (options : OpenOptions) (opening : OpenFault)
    (af₀ : AtomicFile) (hopen : fs.open_ k d₀ path options opening = (d₁, .ok (.atomic af₀)))
    (raw : String) (hraw : options.checksum = some raw) (alg rest : List Char)
    (hsplit : split_once ':' raw.toList = some (alg, rest))
    (halg : eq_ignore_ascii_case (trim alg) "sha256".toList = true)
    (sent : Bytes) (af : AtomicFile) (hrec : Received c af₀ sent af) (hnew : af.committed = false)
    (d : Disk) (fault : AtomicFile.CommitFault) :
    Enforced k c af d fault (trim rest) sent ↔
      (Tight alg ∧ ∃ bs, Spells (trim rest) bs) ∨ Spells (trim rest) (c.sha256 sent) ∨
        (fs.fsync = true ∧ af.file.isSome = true ∧ fault.sync ≠ none) ∨
        ((options.size = none ∨ options.size = some sent.length) ∧
          ∃ e, d.rename k af.temp_path af.target_path fault.rename = .error e) := by
  obtain ⟨dm, o, -, hop, -, hsize, hck, hfsync⟩ := AutoMkcolFs.open_spec hopen
  obtain ⟨hhash, hwritten, hck', hsize', hfsync'⟩ := received_spec hrec hop.hasher hop.written
  rw [hck, hraw] at hck'
  rw [hsize] at hsize'
  rw [hfsync] at hfsync'
  have hwhole : af.should_commit = true ↔
      options.size = none ∨ options.size = some sent.length := by
    unfold AtomicFile.should_commit
    rw [hsize']
    cases options.size with
    | none => simp
    | some n => simp [hwritten, eq_comm]
  rw [enforced_iff, commit_fails_iff k c af d fault hnew, hwhole, hfsync']
  by_cases hs : Spells (trim rest) (c.sha256 sent)
  · exact ⟨fun _ => .inr (.inl hs), fun _ => .inl hs⟩
  · rw [mismatch_iff hc hck' hsplit halg (by rwa [hhash])]
    constructor
    · intro h
      exact (h.resolve_left hs).imp_right .inr
    · intro h
      exact .inr (h.imp_right fun h' => h'.resolve_left hs)

/-- A `PUT` with an `OC-Checksum`. -/
def announcing (raw : String) : OpenOptions := { putting none with checksum := some raw }

/-- The digest of one byte, announced for two. -/
theorem checksum_enforced_iff_wrong : ∃ d₁ af₀ af,
    serving.open_ host .blank ["a"] (announcing "SHA256: S/USLzRFVMU73i67jNK349FgCtYxw4Wl18ziPHeFRZo=")
      unhindered = (d₁, .ok (.atomic af₀)) ∧ Received standard af₀ [1, 2] af ∧
      Enforced host standard af d₁ ⟨none, none⟩
        "S/USLzRFVMU73i67jNK349FgCtYxw4Wl18ziPHeFRZo=".toList [1, 2] := by
  have hopen : (atomic_of (serving.open_ host .blank ["a"]
      (announcing "SHA256: S/USLzRFVMU73i67jNK349FgCtYxw4Wl18ziPHeFRZo=") unhindered)).isSome
      = true := by decide
  obtain ⟨⟨d₁, af₀⟩, hop⟩ := Option.isSome_iff_exists.mp hopen
  have hop := atomic_of_eq_some hop
  obtain ⟨dm, o, -, hfresh, -⟩ := AutoMkcolFs.open_spec hop
  have hok : (af₀.write d₁ (.bytes [1, 2] none)).2.2 = .ok () := by
    simp only [AtomicFile.write, AtomicFile.write_bytes, hfresh.file]
  obtain ⟨-, -, hsame⟩ := write_received hok
  have hrec : Received standard af₀ [1, 2] (af₀.write d₁ (.bytes [1, 2] none)).1 :=
    .wrote d₁ _ .opened hok
  refine ⟨d₁, af₀, _, hop, hrec, ?_⟩
  refine (checksum_enforced_iff standard standard_right host serving .blank d₁ ["a"] _ unhindered
    af₀ hop _ rfl "SHA256".toList " S/USLzRFVMU73i67jNK349FgCtYxw4Wl18ziPHeFRZo=".toList (by decide)
    (by decide) _ _ hrec (hsame.committed.trans hfresh.committed) d₁ ⟨none, none⟩).mpr (.inl ⟨?_, ?_⟩)
  · intro c hc
    obtain rfl : '6' = c := Option.some.inj hc
    decide
  · exact ⟨digests.sha256 [1], .inr (by decide +kernel)⟩

/-- A value that is neither hexadecimal nor base64: the upload is accepted. -/
theorem malformed_accepted : ¬ ∀ (c : Crates), c.Right → ∀ (k : Kernel) (fs : AutoMkcolFs)
    (d₀ d₁ : Disk) (path : List String) (options : OpenOptions) (opening : OpenFault)
    (af₀ : AtomicFile), fs.open_ k d₀ path options opening = (d₁, .ok (.atomic af₀)) →
    ∀ (raw : String), options.checksum = some raw → ∀ (alg rest : List Char),
      split_once ':' raw.toList = some (alg, rest) →
      eq_ignore_ascii_case (trim alg) "sha256".toList = true →
    ∀ (sent : Bytes) (af : AtomicFile), Received c af₀ sent af → af.committed = false →
      ∀ (d : Disk) (fault : AtomicFile.CommitFault), Enforced k c af d fault (trim rest) sent := by
  intro hall
  have hopen : (atomic_of (serving.open_ host .blank ["a"] (announcing "SHA256:n/a")
      unhindered)).isSome = true := by decide
  obtain ⟨⟨d₁, af₀⟩, hop⟩ := Option.isSome_iff_exists.mp hopen
  have hrun : ((atomic_of (serving.open_ host .blank ["a"] (announcing "SHA256:n/a")
      unhindered)).map fun x =>
        let w := x.2.write x.1 (.bytes [1] none)
        decide (w.2.2 = .ok ()) && !w.1.committed &&
          decide ((w.1.commit host standard w.2.1 ⟨none, none⟩).2.2 = .ok ())) = some true := by
    decide +kernel
  rw [hop] at hrun
  simp only [Option.map_some, Option.some.injEq, Bool.and_eq_true, decide_eq_true_eq] at hrun
  obtain ⟨⟨hok, hnew⟩, hcommit⟩ := hrun
  have henf := hall standard standard_right host serving .blank d₁ ["a"] _ unhindered af₀
    (atomic_of_eq_some hop) _ rfl "SHA256".toList "n/a".toList (by decide) (by decide) _ _
    (.wrote d₁ _ .opened hok) (by simpa using hnew)
    (af₀.write d₁ (.bytes [1] none)).2.1 ⟨none, none⟩
  obtain ⟨⟨e, he⟩, -⟩ := henf.2 (by unfold Spells; decide +kernel)
  rw [hcommit] at he
  cases he

end WebDavs.AutoFs
