/-
UTF-8, and what becomes of bytes that are not.

`lossy` is the decoder that never fails: a character where one begins, and one
replacement character for the longest beginning of a character that is then broken
off. What is UTF-8 it reads as it is (`lossy_encode`).
-/
import Mathlib.Data.List.Basic

set_option autoImplicit false

namespace WebDavs.Utf8

/-! ## Decoding -/

/-- A byte that carries a character on. -/
def cont (b : UInt8) : Bool := 0x80 ≤ b.toNat && b.toNat ≤ 0xBF

/-- Whether `c` may follow `b` at the head of three or four bytes: no longer encoding
than is needed, no surrogate, nothing above the last character. -/
def second (b c : UInt8) : Bool :=
  if b.toNat = 0xE0 then 0xA0 ≤ c.toNat && c.toNat ≤ 0xBF
  else if b.toNat = 0xED then 0x80 ≤ c.toNat && c.toNat ≤ 0x9F
  else if b.toNat = 0xF0 then 0x90 ≤ c.toNat && c.toNat ≤ 0xBF
  else if b.toNat = 0xF4 then 0x80 ≤ c.toNat && c.toNat ≤ 0x8F
  else cont c

/-- The value a continuation byte adds. -/
def low (b : UInt8) : Nat := b.toNat - 0x80

/-- How many bytes the character takes that begins with `b`; 0 if none does. -/
def char_width (b : UInt8) : Nat :=
  if b.toNat < 0x80 then 1
  else if b.toNat < 0xC2 then 0
  else if b.toNat < 0xE0 then 2
  else if b.toNat < 0xF0 then 3
  else if b.toNat < 0xF5 then 4
  else 0

/-- The first character and what follows it, or nothing for what is broken off, and
what follows that. -/
def first (b : UInt8) (bs : List UInt8) : Option Char × List UInt8 :=
  match char_width b with
  | 1 => (some (Char.ofNat b.toNat), bs)
  | 2 =>
    match bs with
    | c :: cs =>
      if cont c then (some (Char.ofNat ((b.toNat - 0xC0) * 64 + low c)), cs) else (none, c :: cs)
    | [] => (none, [])
  | 3 =>
    match bs with
    | c :: cs =>
      if second b c then
        match cs with
        | d :: ds =>
          if cont d then
            (some (Char.ofNat (((b.toNat - 0xE0) * 64 + low c) * 64 + low d)), ds)
          else (none, d :: ds)
        | [] => (none, [])
      else (none, c :: cs)
    | [] => (none, [])
  | 4 =>
    match bs with
    | c :: cs =>
      if second b c then
        match cs with
        | d :: ds =>
          if cont d then
            match ds with
            | e :: es =>
              if cont e then
                (some (Char.ofNat ((((b.toNat - 0xF0) * 64 + low c) * 64 + low d) * 64 + low e)),
                  es)
              else (none, e :: es)
            | [] => (none, [])
          else (none, d :: ds)
        | [] => (none, [])
      else (none, c :: cs)
    | [] => (none, [])
  | _ => (none, bs)

theorem length_first_le (b : UInt8) (bs : List UInt8) : (first b bs).2.length ≤ bs.length := by
  unfold first
  split
  · exact Nat.le_refl _
  · split
    · split <;> simp
    · simp
  · split
    · split
      · split
        · split
          · simp only [List.length_cons]
            omega
          · simp
        · simp
      · simp
    · simp
  · split
    · split
      · split
        · split
          · split
            · split
              · simp only [List.length_cons]
                omega
              · simp only [List.length_cons]
                omega
            · simp
          · simp
        · simp
      · simp
    · simp
  · exact Nat.le_refl _

/-- The replacement character. -/
def replacement : Char := Char.ofNat 0xFFFD

/-- `String::from_utf8_lossy`, as the list of its characters. -/
def lossy : List UInt8 → List Char
  | [] => []
  | b :: bs => (first b bs).1.getD replacement :: lossy (first b bs).2
termination_by bs => bs.length
decreasing_by
  have hle := length_first_le b bs
  rw [List.length_cons]
  omega

theorem lossy_cons (b : UInt8) (bs : List UInt8) :
    lossy (b :: bs) = (first b bs).1.getD replacement :: lossy (first b bs).2 := by
  rw [lossy]

/-! ## What is encoded -/

/-- A byte that is written with its value. -/
theorem toNat_byte {n : Nat} (h : n < 256) : (UInt8.ofNat n).toNat = n := by
  rw [UInt8.toNat_ofNat']
  omega

theorem cont_of_toNat {b : UInt8} {n : Nat} (hb : b.toNat = n + 128) (h : n < 64) :
    cont b = true ∧ low b = n := by
  have hlow : 128 ≤ b.toNat := by omega
  have hhigh : b.toNat ≤ 191 := by omega
  have hval : b.toNat - 128 = n := by omega
  refine ⟨?_, hval⟩
  simp only [cont, Bool.and_eq_true, decide_eq_true_eq]
  exact ⟨hlow, hhigh⟩

/-- **One character** is read as it was written. -/
theorem first_encode {c : Char} {b : UInt8} {bs : List UInt8}
    (h : String.utf8EncodeChar c = b :: bs) (rest : List UInt8) :
    first b (bs ++ rest) = (some c, rest) := by
  have hv : c.val.toNat = c.toNat := rfl
  have hvalid : c.toNat < 0xD800 ∨ 0xDFFF < c.toNat ∧ c.toNat < 0x110000 := c.valid
  have hback : Char.ofNat c.toNat = c := Char.ofNat_toNat c
  unfold String.utf8EncodeChar at h
  dsimp only at h
  rw [hv] at h
  by_cases h1 : c.toNat ≤ 0x7F
  · rw [if_pos h1] at h
    cases h
    have hb : (UInt8.ofNat c.toNat).toNat = c.toNat := toNat_byte (by omega)
    have hw : char_width (UInt8.ofNat c.toNat) = 1 := by
      rw [char_width, hb, if_pos (by omega)]
    simp only [first, hw, List.nil_append, hb, hback]
  · rw [if_neg h1] at h
    by_cases h2 : c.toNat ≤ 0x7FF
    · rw [if_pos h2] at h
      cases h
      have hb : (UInt8.ofNat (c.toNat / 64 % 32 + 0xC0)).toNat = c.toNat / 64 % 32 + 0xC0 :=
        toNat_byte (by omega)
      have hw : char_width (UInt8.ofNat (c.toNat / 64 % 32 + 0xC0)) = 2 := by
        rw [char_width, hb, if_neg (by omega), if_neg (by omega), if_pos (by omega)]
      obtain ⟨hcont, hlow⟩ := cont_of_toNat
        (toNat_byte (n := c.toNat % 64 + 128) (by omega)) (by omega)
      have hval : (c.toNat / 64 % 32 + 0xC0 - 0xC0) * 64 + c.toNat % 64 = c.toNat := by omega
      simp only [first, hw, List.cons_append, List.nil_append, hcont, if_true, hlow, hb, hval,
        hback]
    · rw [if_neg h2] at h
      by_cases h3 : c.toNat ≤ 0xFFFF
      · rw [if_pos h3] at h
        cases h
        have hb : (UInt8.ofNat (c.toNat / 4096 % 16 + 0xE0)).toNat = c.toNat / 4096 % 16 + 0xE0 :=
          toNat_byte (by omega)
        have hw : char_width (UInt8.ofNat (c.toNat / 4096 % 16 + 0xE0)) = 3 := by
          rw [char_width, hb, if_neg (by omega), if_neg (by omega), if_neg (by omega),
            if_pos (by omega)]
        have hc := toNat_byte (n := c.toNat / 64 % 64 + 128) (by omega)
        obtain ⟨hcont, hlow⟩ := cont_of_toNat hc (by omega)
        obtain ⟨hcont', hlow'⟩ := cont_of_toNat
          (toNat_byte (n := c.toNat % 64 + 128) (by omega)) (by omega)
        have hsecond : second (UInt8.ofNat (c.toNat / 4096 % 16 + 0xE0))
            (UInt8.ofNat (c.toNat / 64 % 64 + 128)) = true := by
          -- not too long, and no surrogate
          simp only [second, hb, hc, hcont]
          split
          · simp only [Bool.and_eq_true, decide_eq_true_eq]
            omega
          · split
            · simp only [Bool.and_eq_true, decide_eq_true_eq]
              omega
            · rw [if_neg (by omega), if_neg (by omega)]
        have hval : ((c.toNat / 4096 % 16 + 0xE0 - 0xE0) * 64 + c.toNat / 64 % 64) * 64 +
            c.toNat % 64 = c.toNat := by omega
        simp only [first, hw, List.cons_append, List.nil_append, hsecond, hcont', if_true, hlow,
          hlow', hb, hval, hback]
      · rw [if_neg h3] at h
        cases h
        have hb : (UInt8.ofNat (c.toNat / 262144 % 8 + 0xF0)).toNat =
            c.toNat / 262144 % 8 + 0xF0 := toNat_byte (by omega)
        have hw : char_width (UInt8.ofNat (c.toNat / 262144 % 8 + 0xF0)) = 4 := by
          rw [char_width, hb, if_neg (by omega), if_neg (by omega), if_neg (by omega),
            if_neg (by omega), if_pos (by omega)]
        have hc := toNat_byte (n := c.toNat / 4096 % 64 + 128) (by omega)
        obtain ⟨hcont, hlow⟩ := cont_of_toNat hc (by omega)
        obtain ⟨hcont', hlow'⟩ := cont_of_toNat
          (toNat_byte (n := c.toNat / 64 % 64 + 128) (by omega)) (by omega)
        obtain ⟨hcont'', hlow''⟩ := cont_of_toNat
          (toNat_byte (n := c.toNat % 64 + 128) (by omega)) (by omega)
        have hsecond : second (UInt8.ofNat (c.toNat / 262144 % 8 + 0xF0))
            (UInt8.ofNat (c.toNat / 4096 % 64 + 128)) = true := by
          -- not too long, and nothing above the last character
          simp only [second, hb, hc, hcont]
          rw [if_neg (by omega), if_neg (by omega)]
          split
          · simp only [Bool.and_eq_true, decide_eq_true_eq]
            omega
          · split
            · simp only [Bool.and_eq_true, decide_eq_true_eq]
              omega
            · rfl
        have hval : (((c.toNat / 262144 % 8 + 0xF0 - 0xF0) * 64 + c.toNat / 4096 % 64) * 64 +
            c.toNat / 64 % 64) * 64 + c.toNat % 64 = c.toNat := by omega
        simp only [first, hw, List.cons_append, List.nil_append, hsecond, hcont', hcont'', if_true,
          hlow, hlow', hlow'', hb, hval, hback]

theorem utf8EncodeChar_ne_nil (c : Char) : String.utf8EncodeChar c ≠ [] := by
  intro h
  have hlen := congrArg List.length h
  rw [String.length_utf8EncodeChar, List.length_nil] at hlen
  have hpos := c.utf8Size_pos
  omega

/-- **UTF-8 is read as it was written.** -/
theorem lossy_encode (cs : List Char) : lossy (cs.flatMap String.utf8EncodeChar) = cs := by
  induction cs with
  | nil => rw [List.flatMap_nil, lossy]
  | cons c cs ih =>
      obtain ⟨b, bs, hc⟩ := List.exists_cons_of_ne_nil (utf8EncodeChar_ne_nil c)
      rw [List.flatMap_cons, hc, List.cons_append, lossy_cons, first_encode hc, ih]
      rfl

end WebDavs.Utf8
