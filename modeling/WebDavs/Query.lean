/-
Query strings, from the page to the server.

The page writes them with `encodeURIComponent`, the server takes them apart with
`parse_query`. An encoded text holds neither `&` nor `=` nor a `%` but its own, so
the cuts are where they were made; and the bytes that `percent_encoding` gives back
are the UTF-8 of the text.
-/
import WebDavs.Codec
import WebDavs.Credentials
import WebDavs.Cut
import WebDavs.Utf8

set_option autoImplicit false

namespace WebDavs.Query

open Posix (Bytes)
open WebDavs.Codec WebDavs.Cut WebDavs.Utf8

/-! ## The page -/

/-- The characters that `encodeURIComponent` leaves as they are. -/
def unreserved (c : Char) : Bool :=
  ('A' ≤ c && c ≤ 'Z') || ('a' ≤ c && c ≤ 'z') || ('0' ≤ c && c ≤ '9') ||
    ['-', '_', '.', '!', '~', '*', '\'', '(', ')'].contains c

/-- A digit as `encodeURIComponent` writes it. -/
def hex_digit (n : Nat) : Char := n.digitChar.toUpper

/-- `%XX`. -/
def escape (b : UInt8) : List Char := ['%', hex_digit (b.toNat / 16), hex_digit (b.toNat % 16)]

/-- One character of `encodeURIComponent`. -/
def encode_char (c : Char) : List Char :=
  if unreserved c then [c] else (String.utf8EncodeChar c).flatMap escape

/-- `encodeURIComponent`. -/
def encodeURIComponent (s : String) : List Char := s.toList.flatMap encode_char

/-- The pairs, each with its `=`, joined with `&`. -/
def query (pairs : List (String × String)) : String :=
  String.ofList (['&'].intercalate
    (pairs.map fun p => encodeURIComponent p.1 ++ '=' :: encodeURIComponent p.2))

/-! ## The server -/

/-- `percent_encoding::percent_decode_str`, on the bytes of its text: `%XX` is a byte,
what is no `%` is left as it is. -/
structure PercentDecoder where
  decode : Bytes → Bytes
  nil : decode [] = []
  escaped : ∀ a b n m rest, hex_value a = some n → hex_value b = some m →
    decode (UInt8.ofNat '%'.toNat :: UInt8.ofNat a.toNat :: UInt8.ofNat b.toNat :: rest) =
      UInt8.ofNat (16 * n + m) :: decode rest
  plain : ∀ b rest, b ≠ UInt8.ofNat '%'.toNat → decode (b :: rest) = b :: decode rest

/-- The value of a byte as a digit. -/
def digit_value (b : UInt8) : Option Nat := hex_value (Char.ofNat b.toNat)

/-- A decoder as the crate has it: a `%` that no two digits follow stays as well. -/
def percent_decode_str : Bytes → Bytes
  | b :: x :: y :: rest =>
    if b = UInt8.ofNat '%'.toNat then
      match digit_value x, digit_value y with
      | some n, some m => UInt8.ofNat (16 * n + m) :: percent_decode_str rest
      | _, _ => b :: percent_decode_str (x :: y :: rest)
    else b :: percent_decode_str (x :: y :: rest)
  | b :: rest => b :: percent_decode_str rest
  | [] => []

/-- A digit is ASCII. -/
theorem digit_ascii {c : Char} {n : Nat} (h : hex_value c = some n) : c.toNat < 128 := by
  obtain ⟨hn, hlow⟩ := hex_value_eq_some.mp h
  have hdigit : ∀ i < 16, i.digitChar.toNat < 128 := by decide
  by_cases hup : c.val ≥ 'A'.val ∧ c.val ≤ 'Z'.val
  · have hle := UInt32.le_iff_toNat_le.mp hup.2
    have hz : 'Z'.val.toNat = 90 := rfl
    have hc : c.toNat = c.val.toNat := rfl
    omega
  · have hc : c.toLower = c := dif_neg hup
    rw [← hc, hlow]
    exact hdigit n hn

theorem digit_value_of {c : Char} {n : Nat} (h : hex_value c = some n) :
    digit_value (UInt8.ofNat c.toNat) = some n := by
  have hascii := digit_ascii h
  rw [digit_value, toNat_byte (by omega), Char.ofNat_toNat, h]

/-- It does what is relied on. -/
def crate : PercentDecoder where
  decode := percent_decode_str
  nil := rfl
  escaped a b n m rest ha hb := by
    rw [percent_decode_str, if_pos rfl, digit_value_of ha, digit_value_of hb]
  plain b rest hb := by
    match rest with
    | [] => rfl
    | [x] => rfl
    | x :: y :: rest => rw [percent_decode_str, if_neg hb]

section

variable (dec : PercentDecoder)

/-- `percent_decode`. -/
def percent_decode (s : List Char) : String :=
  String.ofList (lossy (dec.decode (s.flatMap String.utf8EncodeChar)))

/-- `HashMap::insert`. -/
def insert (m : String → Option String) (k v : String) : String → Option String := fun x =>
  if x = k then some v else m x

/-- The loop of `parse_query`. -/
def add_pair (m : String → Option String) (pair : List Char) : String → Option String :=
  if pair.isEmpty then m
  else
    insert m (percent_decode dec (pair.takeWhile (· ≠ '=')))
      (percent_decode dec ((pair.dropWhile (· ≠ '=')).drop 1))

/-- `parse_query`. -/
def parse_query (q : String) : String → Option String :=
  (q.toList.splitOn '&').foldl (add_pair dec) fun _ => none

end

/-! ## Encoded text -/

theorem hex_digit_value : ∀ n < 16, hex_value (hex_digit n) = some n := by decide

theorem hex_digit_plain : ∀ n < 16, unreserved (hex_digit n) = true := by decide

theorem unreserved_ascii {c : Char} (h : unreserved c = true) : c.toNat < 128 := by
  have hle : ∀ d : Char, c ≤ d → c.toNat ≤ d.toNat := fun d hd => UInt32.le_iff_toNat_le.mp hd
  simp only [unreserved, Bool.or_eq_true, Bool.and_eq_true, decide_eq_true_eq,
    List.contains_iff_mem] at h
  rcases h with ((⟨-, h⟩ | ⟨-, h⟩) | ⟨-, h⟩) | h
  · have hn := hle 'Z' h
    have hz : 'Z'.toNat = 90 := rfl
    omega
  · have hn := hle 'z' h
    have hz : 'z'.toNat = 122 := rfl
    omega
  · have hn := hle '9' h
    have hz : '9'.toNat = 57 := rfl
    omega
  · simp only [List.mem_cons, List.not_mem_nil, or_false] at h
    rcases h with rfl | rfl | rfl | rfl | rfl | rfl | rfl | rfl | rfl <;> decide

/-- What stands in an encoded text. -/
theorem mem_encode_char {c x : Char} (h : x ∈ encode_char c) : unreserved x = true ∨ x = '%' := by
  unfold encode_char at h
  by_cases hc : unreserved c = true
  · rw [if_pos hc, List.mem_singleton] at h
    exact .inl (h ▸ hc)
  · rw [if_neg hc] at h
    obtain ⟨b, -, hx⟩ := List.mem_flatMap.mp h
    have hb := b.toNat_lt
    simp only [escape, List.mem_cons, List.not_mem_nil, or_false] at hx
    rcases hx with rfl | rfl | rfl
    · exact .inr rfl
    · exact .inl (hex_digit_plain _ (by omega))
    · exact .inl (hex_digit_plain _ (by omega))

theorem mem_encode {s : String} {x : Char} (h : x ∈ encodeURIComponent s) :
    unreserved x = true ∨ x = '%' := by
  obtain ⟨c, -, hx⟩ := List.mem_flatMap.mp h
  exact mem_encode_char hx

/-- No separator comes out of the encoder. -/
theorem separator_not_mem (s : String) {x : Char} (hx : unreserved x = false) (hp : x ≠ '%') :
    x ∉ encodeURIComponent s := by
  intro h
  rcases mem_encode h with hu | heq
  · rw [hx] at hu
    cases hu
  · exact hp heq

/-- Text of unreserved characters is left as it is. -/
theorem encode_plain {s : String} (h : ∀ c ∈ s.toList, unreserved c = true) :
    encodeURIComponent s = s.toList := by
  have hall : encodeURIComponent s = s.toList.flatMap fun c => [c] := by
    refine List.flatMap_congr ?_
    intro c hc
    rw [encode_char, if_pos (h c hc)]
  rw [hall, List.flatMap_singleton']

section

variable (dec : PercentDecoder)

theorem byte_inj {c d : Char} (hc : c.toNat < 128) (hd : d.toNat < 128)
    (h : UInt8.ofNat c.toNat = UInt8.ofNat d.toNat) : c = d := by
  have hn := congrArg UInt8.toNat h
  rw [toNat_byte (by omega), toNat_byte (by omega)] at hn
  exact Char.toNat_inj.mp hn

/-- An escaped byte is decoded. -/
theorem decode_escape (b : UInt8) (rest : Bytes) :
    dec.decode ((escape b).flatMap String.utf8EncodeChar ++ rest) = b :: dec.decode rest := by
  have hb := b.toNat_lt
  have hhi := hex_digit_value (b.toNat / 16) (by omega)
  have hlo := hex_digit_value (b.toNat % 16) (by omega)
  have hhi' := unreserved_ascii (hex_digit_plain (b.toNat / 16) (by omega))
  have hlo' := unreserved_ascii (hex_digit_plain (b.toNat % 16) (by omega))
  have hval : UInt8.ofNat (16 * (b.toNat / 16) + b.toNat % 16) = b := by
    rw [Nat.div_add_mod]
    exact UInt8.ofNat_toNat
  simp only [escape, List.flatMap_cons, List.flatMap_nil, List.append_nil,
    utf8EncodeChar_ascii hhi', utf8EncodeChar_ascii hlo',
    utf8EncodeChar_ascii (show '%'.toNat < 128 by decide), List.cons_append, List.nil_append]
  rw [dec.escaped _ _ _ _ _ hhi hlo, hval]

/-- **One character** comes back as its bytes. -/
theorem decode_char (c : Char) (rest : Bytes) :
    dec.decode ((encode_char c).flatMap String.utf8EncodeChar ++ rest) =
      String.utf8EncodeChar c ++ dec.decode rest := by
  unfold encode_char
  by_cases hc : unreserved c = true
  · have hascii := unreserved_ascii hc
    have hne : UInt8.ofNat c.toNat ≠ UInt8.ofNat '%'.toNat := by
      intro heq
      have hpct : c = '%' := byte_inj hascii (by decide) heq
      rw [hpct] at hc
      cases hc
    rw [if_pos hc, List.flatMap_singleton, utf8EncodeChar_ascii hascii, List.singleton_append,
      dec.plain _ _ hne, List.singleton_append]
  · rw [if_neg hc]
    induction String.utf8EncodeChar c with
    | nil => rfl
    | cons b bs ih =>
        rw [List.flatMap_cons, List.flatMap_append, List.append_assoc, decode_escape, ih,
          List.cons_append]

/-- **Encoded text** is decoded to the text. -/
theorem percent_decode_encode (s : String) : percent_decode dec (encodeURIComponent s) = s := by
  have hbytes : ∀ cs : List Char,
      dec.decode ((cs.flatMap encode_char).flatMap String.utf8EncodeChar) =
        cs.flatMap String.utf8EncodeChar := by
    intro cs
    induction cs with
    | nil => exact dec.nil
    | cons c cs ih =>
        rw [List.flatMap_cons, List.flatMap_append, decode_char, ih, List.flatMap_cons]
  rw [percent_decode, encodeURIComponent, hbytes, lossy_encode, String.ofList_toList]

/-! ## The round trip -/

/-- What one encoded pair does to the map. -/
theorem add_pair_encode (m : String → Option String) (k v : String) :
    add_pair dec m (encodeURIComponent k ++ '=' :: encodeURIComponent v) = insert m k v := by
  have hk : '=' ∉ encodeURIComponent k := separator_not_mem k (by decide) (by decide)
  have htake := takeWhile_ne hk (r := '=' :: encodeURIComponent v) (.inr rfl)
  have hdrop := dropWhile_ne hk (r := '=' :: encodeURIComponent v) (.inr rfl)
  have hne : (encodeURIComponent k ++ '=' :: encodeURIComponent v).isEmpty = false := by
    simp
  rw [add_pair, hne, if_neg Bool.false_ne_true, htake, hdrop, List.drop_one, List.tail_cons,
    percent_decode_encode, percent_decode_encode]

/-- The value of the last pair with this key. -/
def last_value (pairs : List (String × String)) (k : String) : Option String :=
  ((pairs.filter fun p => p.1 = k).getLast?).map Prod.snd

theorem last_value_concat (pairs : List (String × String)) (p : String × String) :
    last_value (pairs ++ [p]) = insert (last_value pairs) p.1 p.2 := by
  funext x
  rw [last_value, insert, List.filter_append]
  by_cases hx : x = p.1
  · rw [if_pos hx, hx]
    simp
  · have hne : ¬ p.1 = x := fun h => hx h.symm
    rw [if_neg hx]
    simp [hne, last_value]

/-- **Query strings round-trip.** The map that `parse_query` gives for the encoded pairs
has for each key the value of its last pair, and nothing else; and a key of
unreserved characters stands in the query as it is. -/
theorem parse_query_encode (pairs : List (String × String)) :
    parse_query dec (query pairs) = last_value pairs ∧
      ∀ k : String, (∀ c ∈ k.toList, unreserved c = true) → encodeURIComponent k = k.toList := by
  refine ⟨?_, fun k hk => encode_plain hk⟩
  rw [parse_query, query, String.toList_ofList]
  by_cases hpairs : pairs = []
  · subst hpairs
    rfl
  · have hamp : ∀ l ∈ pairs.map fun p => encodeURIComponent p.1 ++ '=' :: encodeURIComponent p.2,
        '&' ∉ l := by
      intro l hl
      obtain ⟨p, -, rfl⟩ := List.mem_map.mp hl
      rw [List.mem_append, List.mem_cons]
      rintro (h | h | h)
      · exact separator_not_mem p.1 (by decide) (by decide) h
      · cases h
      · exact separator_not_mem p.2 (by decide) (by decide) h
    rw [List.splitOn_intercalate '&' hamp (by simpa using hpairs), List.foldl_map]
    clear hamp hpairs
    induction pairs using List.reverseRecOn with
    | nil => rfl
    | append_singleton pairs p ih =>
        rw [List.foldl_append, ih, List.foldl_cons, List.foldl_nil, add_pair_encode,
          last_value_concat]

end

end WebDavs.Query
