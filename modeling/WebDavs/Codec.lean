/-
Two ways of writing bytes as text: hexadecimal, and the standard base64 of
RFC 4648.

For each there is an encoder and a decoder, and one theorem that says what the
decoder accepts: what the encoder writes, for hexadecimal in any mix of letter
cases, for base64 to the letter (full padding, no stray bits).
-/
import Mathlib.Data.List.Basic
import Mathlib.Tactic.IntervalCases

set_option autoImplicit false

namespace WebDavs.Codec

/-! ## Hexadecimal -/

/-- Two lower-case digits for each byte. -/
def hex_encode (bs : List UInt8) : List Char :=
  bs.flatMap fun b => [(b.toNat / 16).digitChar, (b.toNat % 16).digitChar]

/-- The value of a digit, in either case. -/
def hex_value (c : Char) : Option ℕ := (List.range 16).find? fun n => n.digitChar = c.toLower

def hex_decode : List Char → Option (List UInt8)
  | [] => some []
  | [_] => none
  | h :: l :: cs =>
    match hex_value h, hex_value l, hex_decode cs with
    | some h, some l, some bs => some (UInt8.ofNat (16 * h + l) :: bs)
    | _, _, _ => none

theorem digitChar_inj : ∀ n < 16, ∀ m < 16, n.digitChar = m.digitChar → n = m := by decide

theorem hex_value_eq_some {c : Char} {n : ℕ} :
    hex_value c = some n ↔ n < 16 ∧ c.toLower = n.digitChar := by
  unfold hex_value
  rw [List.find?_range_eq_some]
  constructor
  · rintro ⟨h, hn, -⟩
    exact ⟨List.mem_range.mp hn, (by simpa using h : n.digitChar = c.toLower).symm⟩
  · rintro ⟨hn, h⟩
    refine ⟨by simpa using h.symm, List.mem_range.mpr hn, fun m hm => ?_⟩
    rw [h]
    simp only [Bool.not_eq_true', decide_eq_false_iff_not]
    intro he
    have := digitChar_inj m (by omega) n hn he
    omega

theorem hex_encode_cons (b : UInt8) (bs : List UInt8) : hex_encode (b :: bs)
    = (b.toNat / 16).digitChar :: (b.toNat % 16).digitChar :: hex_encode bs := rfl

/-- What hexadecimal text stands for. -/
theorem hex_decode_eq_some : ∀ {cs : List Char} {bs : List UInt8},
    hex_decode cs = some bs ↔ cs.map Char.toLower = hex_encode bs
  | [], bs => by
      cases bs with
      | nil => simp [hex_decode, hex_encode]
      | cons b bs => simp [hex_decode, hex_encode]
  | [c], bs => by
      cases bs with
      | nil => simp [hex_decode, hex_encode]
      | cons b bs => simp [hex_decode, hex_encode]
  | h :: l :: cs, bs => by
      rw [List.map_cons, List.map_cons]
      constructor
      · intro hd
        unfold hex_decode at hd
        split at hd
        · rename_i n m us hn hm hus
          obtain rfl := Option.some.inj hd
          obtain ⟨hn, hn'⟩ := hex_value_eq_some.mp hn
          obtain ⟨hm, hm'⟩ := hex_value_eq_some.mp hm
          have hb : (UInt8.ofNat (16 * n + m)).toNat = 16 * n + m := by
            rw [UInt8.toNat_ofNat']
            omega
          rw [hex_encode_cons, hb, hex_decode_eq_some.mp hus, hn', hm',
            show (16 * n + m) / 16 = n by omega, show (16 * n + m) % 16 = m by omega]
        · cases hd
      · intro he
        cases bs with
        | nil => cases he
        | cons b bs =>
            rw [hex_encode_cons] at he
            obtain ⟨hh, he⟩ := List.cons.inj he
            obtain ⟨hl, he⟩ := List.cons.inj he
            have hlt := b.toNat_lt
            -- the two halves of a byte make the byte again
            have hb : UInt8.ofNat (16 * (b.toNat / 16) + b.toNat % 16) = b := by
              rw [show 16 * (b.toNat / 16) + b.toNat % 16 = b.toNat by omega]
              exact UInt8.ofNat_toNat
            unfold hex_decode
            rw [hex_value_eq_some.mpr ⟨by omega, hh⟩, hex_value_eq_some.mpr ⟨by omega, hl⟩,
              hex_decode_eq_some.mpr he]
            dsimp only
            rw [hb]

/-- The letters of hexadecimal text. -/
theorem mem_hex_encode {bs : List UInt8} {c : Char} (h : c ∈ hex_encode bs) :
    ∃ n < 16, c = n.digitChar := by
  unfold hex_encode at h
  obtain ⟨b, -, hc⟩ := List.mem_flatMap.mp h
  have hb := b.toNat_lt
  rcases List.mem_cons.mp hc with rfl | hc
  · exact ⟨_, by omega, rfl⟩
  · exact ⟨_, by omega, List.mem_singleton.mp hc⟩

/-! ## Base64 -/

/-- The alphabet of the standard encoding. -/
def alphabet : List Char :=
  ['A', 'B', 'C', 'D', 'E', 'F', 'G', 'H', 'I', 'J', 'K', 'L', 'M', 'N', 'O', 'P',
    'Q', 'R', 'S', 'T', 'U', 'V', 'W', 'X', 'Y', 'Z', 'a', 'b', 'c', 'd', 'e', 'f',
    'g', 'h', 'i', 'j', 'k', 'l', 'm', 'n', 'o', 'p', 'q', 'r', 's', 't', 'u', 'v',
    'w', 'x', 'y', 'z', '0', '1', '2', '3', '4', '5', '6', '7', '8', '9', '+', '/']

/-- The letter of a six-bit number. -/
def letter (n : ℕ) : Char := alphabet.getD n 'A'

/-- The six-bit number of a letter. -/
def letter_value (c : Char) : Option ℕ := (List.range 64).find? fun n => letter n = c

/-- Four letters for three bytes; at the end fewer, and `=` in their place. -/
def base64_encode : List UInt8 → List Char
  | [] => []
  | [a] => [letter (a.toNat / 4), letter (a.toNat % 4 * 16), '=', '=']
  | [a, b] =>
    [letter (a.toNat / 4), letter (a.toNat % 4 * 16 + b.toNat / 16), letter (b.toNat % 16 * 4), '=']
  | a :: b :: c :: bs =>
    letter (a.toNat / 4) :: letter (a.toNat % 4 * 16 + b.toNat / 16) ::
      letter (b.toNat % 16 * 4 + c.toNat / 64) :: letter (c.toNat % 64) :: base64_encode bs

/-- The bytes of four letters, or of the last two or three. Bits that are left over
must not be set. -/
def base64_decode : List Char → Option (List UInt8)
  | [] => some []
  | w :: x :: y :: z :: cs =>
    match letter_value w, letter_value x, letter_value y, letter_value z with
    | some w, some x, none, none =>
      if y = '=' ∧ z = '=' ∧ cs = [] ∧ x % 16 = 0 then some [UInt8.ofNat (4 * w + x / 16)] else none
    | some w, some x, some y, none =>
      if z = '=' ∧ cs = [] ∧ y % 4 = 0 then
        some [UInt8.ofNat (4 * w + x / 16), UInt8.ofNat (x % 16 * 16 + y / 4)]
      else none
    | some w, some x, some y, some z =>
      (base64_decode cs).map fun bs => UInt8.ofNat (4 * w + x / 16) ::
        UInt8.ofNat (x % 16 * 16 + y / 4) :: UInt8.ofNat (y % 4 * 64 + z) :: bs
    | _, _, _, _ => none
  | _ => none

theorem letter_get {n : ℕ} (h : n < 64) : alphabet[n]? = some (letter n) := by
  have hlen : alphabet.length = 64 := by decide
  rw [letter, List.getD_eq_getElem?_getD, List.getElem?_eq_getElem (by omega), Option.getD_some]

theorem letter_inj {n m : ℕ} (hn : n < 64) (hm : m < 64) (h : letter n = letter m) : n = m := by
  have hlen : alphabet.length = 64 := by decide
  have hnodup : alphabet.Nodup := by decide +kernel
  refine (List.getElem?_inj (by omega) hnodup).mp ?_
  rw [letter_get hn, letter_get hm, h]

theorem letter_value_eq_some {c : Char} {n : ℕ} :
    letter_value c = some n ↔ n < 64 ∧ c = letter n := by
  unfold letter_value
  rw [List.find?_range_eq_some]
  constructor
  · rintro ⟨h, hn, -⟩
    exact ⟨List.mem_range.mp hn, (by simpa using h : letter n = c).symm⟩
  · rintro ⟨hn, rfl⟩
    refine ⟨by simp, List.mem_range.mpr hn, fun m hm => ?_⟩
    simp only [Bool.not_eq_true', decide_eq_false_iff_not]
    intro he
    have := letter_inj (by omega) hn he
    omega

theorem letter_value_pad : letter_value '=' = none := by decide +kernel

theorem letter_value_letter {n : ℕ} (h : n < 64) : letter_value (letter n) = some n :=
  letter_value_eq_some.mpr ⟨h, rfl⟩

/-- What is written is read back. -/
theorem base64_decode_encode : ∀ bs : List UInt8, base64_decode (base64_encode bs) = some bs
  | [] => rfl
  | [a] => by
      have ha := a.toNat_lt
      unfold base64_encode base64_decode
      rw [letter_value_letter (by omega), letter_value_letter (by omega), letter_value_pad]
      dsimp only
      rw [if_pos ⟨rfl, rfl, rfl, by omega⟩,
        show 4 * (a.toNat / 4) + a.toNat % 4 * 16 / 16 = a.toNat by omega, UInt8.ofNat_toNat]
  | [a, b] => by
      have ha := a.toNat_lt
      have hb := b.toNat_lt
      unfold base64_encode base64_decode
      rw [letter_value_letter (by omega), letter_value_letter (by omega),
        letter_value_letter (by omega), letter_value_pad]
      dsimp only
      rw [if_pos ⟨rfl, rfl, by omega⟩,
        show 4 * (a.toNat / 4) + (a.toNat % 4 * 16 + b.toNat / 16) / 16 = a.toNat by omega,
        show (a.toNat % 4 * 16 + b.toNat / 16) % 16 * 16 + b.toNat % 16 * 4 / 4 = b.toNat by omega,
        UInt8.ofNat_toNat, UInt8.ofNat_toNat]
  | a :: b :: c :: bs => by
      have ha := a.toNat_lt
      have hb := b.toNat_lt
      have hc := c.toNat_lt
      unfold base64_encode base64_decode
      rw [letter_value_letter (by omega), letter_value_letter (by omega),
        letter_value_letter (by omega), letter_value_letter (by omega)]
      dsimp only
      rw [base64_decode_encode bs, Option.map_some,
        show 4 * (a.toNat / 4) + (a.toNat % 4 * 16 + b.toNat / 16) / 16 = a.toNat by omega,
        show (a.toNat % 4 * 16 + b.toNat / 16) % 16 * 16 + (b.toNat % 16 * 4 + c.toNat / 64) / 4
          = b.toNat by omega,
        show (b.toNat % 16 * 4 + c.toNat / 64) % 4 * 64 + c.toNat % 64 = c.toNat by omega,
        UInt8.ofNat_toNat, UInt8.ofNat_toNat, UInt8.ofNat_toNat]

/-- Nothing else is read. -/
theorem base64_encode_of_decode : ∀ {cs : List Char} {bs : List UInt8},
    base64_decode cs = some bs → cs = base64_encode bs
  | [], bs, h => by
      cases h
      rfl
  | [_], bs, h => by cases h
  | [_, _], bs, h => by cases h
  | [_, _, _], bs, h => by cases h
  | w :: x :: y :: z :: cs, bs, h => by
      unfold base64_decode at h
      split at h
      -- "==" at the end: one byte, and the low bits of the second letter are zero
      · rename_i a b ha hb hc hd
        obtain ⟨ha, rfl⟩ := letter_value_eq_some.mp ha
        obtain ⟨hb, rfl⟩ := letter_value_eq_some.mp hb
        split at h
        · rename_i hp
          obtain ⟨rfl, rfl, rfl, hbits⟩ := hp
          cases h
          have h₁ : (UInt8.ofNat (4 * a + b / 16)).toNat = 4 * a + b / 16 := by
            rw [UInt8.toNat_ofNat']
            omega
          unfold base64_encode
          rw [h₁, show (4 * a + b / 16) / 4 = a by omega,
            show (4 * a + b / 16) % 4 * 16 = b by omega]
        · cases h
      -- "=" at the end: two bytes
      · rename_i a b c ha hb hc hd
        obtain ⟨ha, rfl⟩ := letter_value_eq_some.mp ha
        obtain ⟨hb, rfl⟩ := letter_value_eq_some.mp hb
        obtain ⟨hc, rfl⟩ := letter_value_eq_some.mp hc
        split at h
        · rename_i hp
          obtain ⟨rfl, rfl, hbits⟩ := hp
          cases h
          have h₁ : (UInt8.ofNat (4 * a + b / 16)).toNat = 4 * a + b / 16 := by
            rw [UInt8.toNat_ofNat']
            omega
          have h₂ : (UInt8.ofNat (b % 16 * 16 + c / 4)).toNat = b % 16 * 16 + c / 4 := by
            rw [UInt8.toNat_ofNat']
            omega
          unfold base64_encode
          rw [h₁, h₂, show (4 * a + b / 16) / 4 = a by omega,
            show (4 * a + b / 16) % 4 * 16 + (b % 16 * 16 + c / 4) / 16 = b by omega,
            show (b % 16 * 16 + c / 4) % 16 * 4 = c by omega]
        · cases h
      -- four letters: three bytes, and the rest by the induction
      · rename_i a b c d ha hb hc hd
        obtain ⟨ha, rfl⟩ := letter_value_eq_some.mp ha
        obtain ⟨hb, rfl⟩ := letter_value_eq_some.mp hb
        obtain ⟨hc, rfl⟩ := letter_value_eq_some.mp hc
        obtain ⟨hd, rfl⟩ := letter_value_eq_some.mp hd
        obtain ⟨us, hus, rfl⟩ := Option.map_eq_some_iff.mp h
        have h₁ : (UInt8.ofNat (4 * a + b / 16)).toNat = 4 * a + b / 16 := by
          rw [UInt8.toNat_ofNat']
          omega
        have h₂ : (UInt8.ofNat (b % 16 * 16 + c / 4)).toNat = b % 16 * 16 + c / 4 := by
          rw [UInt8.toNat_ofNat']
          omega
        have h₃ : (UInt8.ofNat (c % 4 * 64 + d)).toNat = c % 4 * 64 + d := by
          rw [UInt8.toNat_ofNat']
          omega
        unfold base64_encode
        rw [h₁, h₂, h₃, ← base64_encode_of_decode hus, show (4 * a + b / 16) / 4 = a by omega,
          show (4 * a + b / 16) % 4 * 16 + (b % 16 * 16 + c / 4) / 16 = b by omega,
          show (b % 16 * 16 + c / 4) % 16 * 4 + (c % 4 * 64 + d) / 64 = c by omega,
          show (c % 4 * 64 + d) % 64 = d by omega]
      · cases h

/-- What base64 text stands for. -/
theorem base64_decode_eq_some {cs : List Char} {bs : List UInt8} :
    base64_decode cs = some bs ↔ cs = base64_encode bs := by
  constructor
  · exact base64_encode_of_decode
  · rintro rfl
    exact base64_decode_encode bs

theorem letter_mem {n : ℕ} (h : n < 64) : letter n ∈ alphabet :=
  List.mem_of_getElem? (letter_get h)

/-- The letters of base64 text. -/
theorem mem_base64_encode : ∀ {bs : List UInt8} {c : Char}, c ∈ base64_encode bs →
    c ∈ '=' :: alphabet
  | [], c, h => by cases h
  | [a], c, h => by
      have ha := a.toNat_lt
      unfold base64_encode at h
      simp only [List.mem_cons, List.not_mem_nil, or_false] at h
      rcases h with rfl | rfl | rfl | rfl
      · exact List.mem_cons_of_mem _ (letter_mem (by omega))
      · exact List.mem_cons_of_mem _ (letter_mem (by omega))
      · exact List.mem_cons_self
      · exact List.mem_cons_self
  | [a, b], c, h => by
      have ha := a.toNat_lt
      have hb := b.toNat_lt
      unfold base64_encode at h
      simp only [List.mem_cons, List.not_mem_nil, or_false] at h
      rcases h with rfl | rfl | rfl | rfl
      · exact List.mem_cons_of_mem _ (letter_mem (by omega))
      · exact List.mem_cons_of_mem _ (letter_mem (by omega))
      · exact List.mem_cons_of_mem _ (letter_mem (by omega))
      · exact List.mem_cons_self
  | a :: b :: d :: bs, c, h => by
      have ha := a.toNat_lt
      have hb := b.toNat_lt
      have hd := d.toNat_lt
      unfold base64_encode at h
      simp only [List.mem_cons] at h
      rcases h with rfl | rfl | rfl | rfl | h
      · exact List.mem_cons_of_mem _ (letter_mem (by omega))
      · exact List.mem_cons_of_mem _ (letter_mem (by omega))
      · exact List.mem_cons_of_mem _ (letter_mem (by omega))
      · exact List.mem_cons_of_mem _ (letter_mem (by omega))
      · exact mem_base64_encode h

/-- Bytes that are no multiple of three end in `=`. -/
theorem pad_mem_base64_encode : ∀ {bs : List UInt8}, bs.length % 3 ≠ 0 → '=' ∈ base64_encode bs
  | [], h => absurd rfl h
  | [a], _ => by simp [base64_encode]
  | [a, b], _ => by simp [base64_encode]
  | a :: b :: c :: bs, h => by
      have hbs : bs.length % 3 ≠ 0 := by
        simp only [List.length_cons] at h
        omega
      have ih := pad_mem_base64_encode hbs
      simp [base64_encode, ih]

/-- So they are not mistaken for hexadecimal text. -/
theorem hex_decode_base64 {bs : List UInt8} (h : bs.length % 3 ≠ 0) :
    hex_decode (base64_encode bs) = none := by
  cases hx : hex_decode (base64_encode bs) with
  | none => rfl
  | some us =>
      have hmap := hex_decode_eq_some.mp hx
      have hpad : '='.toLower ∈ (base64_encode bs).map Char.toLower :=
        List.mem_map_of_mem (pad_mem_base64_encode h)
      rw [hmap] at hpad
      obtain ⟨n, hn, he⟩ := mem_hex_encode hpad
      exact absurd he ((by decide : ∀ n < 16, '='.toLower ≠ n.digitChar) n hn)

end WebDavs.Codec
