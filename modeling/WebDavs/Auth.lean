/-
`src/auth.rs`: HTTP Basic authentication, and the part of `http::HeaderMap` it
reads.

A header value is bytes; `to_str` gives a string only for visible ASCII. What is
used of the crates `http` and `subtle` is a parameter, with what their
documentation says of it; so is the base64 decoder.
-/
import WebDavs.Posix.Tree

set_option autoImplicit false

namespace WebDavs

open Posix (Bytes)

/-! ## Headers -/

/-- `str::as_bytes`. -/
def as_bytes (s : String) : Bytes := s.toUTF8.data.toList

theorem as_bytes_injective : Function.Injective as_bytes := by
  intro s t h
  have hd : s.toUTF8.data = t.toUTF8.data := Array.toList_inj.mp h
  exact String.toByteArray_inj.mp (ByteArray.ext hd)

theorem as_bytes_eq (s : String) : as_bytes s = s.toList.flatMap String.utf8EncodeChar := by
  unfold as_bytes
  rw [String.toUTF8_eq_toByteArray, ← String.utf8Encode_toList, List.utf8Encode,
    List.data_toByteArray]

theorem utf8EncodeChar_ascii {c : Char} (h : c.toNat < 128) :
    String.utf8EncodeChar c = [UInt8.ofNat c.toNat] := by
  have hc : c.val.toNat = c.toNat := rfl
  unfold String.utf8EncodeChar
  dsimp only
  rw [hc, if_pos (by omega)]

/-- A header map, as a list in the order of arrival. Names are in lower case, as
`HeaderName` keeps them. -/
abbrev HeaderMap := List (String × Bytes)

/-- A character that `to_str` lets through. -/
def Visible (c : Char) : Prop := (32 ≤ c.toNat ∧ c.toNat < 127) ∨ c.toNat = 9

theorem as_bytes_visible {s : String} (h : ∀ c ∈ s.toList, Visible c) :
    as_bytes s = s.toList.map fun c => UInt8.ofNat c.toNat := by
  rw [as_bytes_eq, List.map_eq_flatMap]
  refine List.flatMap_congr fun c hc => utf8EncodeChar_ascii ?_
  have := h c hc
  unfold Visible at this
  omega

/-- What the program takes from the crates `http` and `subtle`: `HeaderMap::get`,
`HeaderValue::to_str`, and `ct_eq` on slices. -/
structure HttpCrates where
  get : HeaderMap → String → Option Bytes
  to_str : Bytes → Option String
  ct_eq : Bytes → Bytes → Bool

/-- What their documentation says: a value is found if there is one under the name, and only
such a value; it is text if it is visible ASCII; and the comparison in constant time is
equality. -/
structure HttpCrates.Documented (c : HttpCrates) : Prop where
  get_mem : ∀ {h : HeaderMap} {name v}, c.get h name = some v → (name, v) ∈ h
  get_none : ∀ {h : HeaderMap} {name}, c.get h name = none → ∀ v, (name, v) ∉ h
  to_str : ∀ {v s}, c.to_str v = some s ↔ v = as_bytes s ∧ ∀ x ∈ s.toList, Visible x
  ct_eq : ∀ {a b}, c.ct_eq a b = true ↔ a = b

namespace HttpCrates

variable {c : HttpCrates}

theorem Documented.ct_eq_iff (hc : c.Documented) {s t : String} :
    c.ct_eq (as_bytes s) (as_bytes t) = true ↔ s = t :=
  hc.ct_eq.trans as_bytes_injective.eq_iff

/-- The only value of a map is found. -/
theorem Documented.get_single (hc : c.Documented) (name : String) (v : Bytes) :
    c.get [(name, v)] name = some v := by
  cases hg : c.get [(name, v)] name with
  | none => exact absurd List.mem_cons_self (hc.get_none hg v)
  | some w => rw [(Prod.mk.inj (List.mem_singleton.mp (hc.get_mem hg))).2]

/-- The crates as they are: the first value under the name, visible ASCII and tabs only, and
equality. -/
def real : HttpCrates where
  get h name := List.lookup name h
  to_str v :=
    if v.all fun b => (32 ≤ b && b < 127) || b == 9 then
      some (String.ofList (v.map fun b => Char.ofNat b.toNat))
    else none
  ct_eq a b := a == b

/-- Text that a header can carry, and the bytes that carry it. -/
theorem real_to_str {v : Bytes} {s : String} :
    real.to_str v = some s ↔ v = as_bytes s ∧ ∀ c ∈ s.toList, Visible c := by
  -- the test of the crate, byte by byte, in numbers
  have hvis : ∀ b : UInt8, ((32 ≤ b && b < 127) || b == 9) = true ↔
      (32 ≤ b.toNat ∧ b.toNat < 127) ∨ b.toNat = 9 := by
    intro b
    simp [UInt8.le_iff_toNat_le, UInt8.lt_iff_toNat_lt, ← UInt8.toNat_inj]
  have hchar : ∀ n < 128, (Char.ofNat n).toNat = n := by decide
  unfold real
  dsimp only
  constructor
  · intro h
    split at h
    · rename_i hall
      obtain rfl := Option.some.inj h
      have hb : ∀ b ∈ v, (32 ≤ b.toNat ∧ b.toNat < 127) ∨ b.toNat = 9 := fun b hb =>
        (hvis b).mp (List.all_eq_true.mp hall b hb)
      have hv : ∀ c ∈ (String.ofList (v.map fun b => Char.ofNat b.toNat)).toList, Visible c := by
        intro c hc
        rw [String.toList_ofList] at hc
        obtain ⟨b, hbv, rfl⟩ := List.mem_map.mp hc
        unfold Visible
        have := hb b hbv
        rw [hchar _ (by omega)]
        exact this
      refine ⟨?_, hv⟩
      rw [as_bytes_visible hv, String.toList_ofList, List.map_map]
      -- visible characters are one byte each, so the text gives the bytes back
      conv_lhs => rw [← List.map_id v]
      refine List.map_congr_left fun b hbv => ?_
      have := hb b hbv
      rw [Function.comp_apply, hchar _ (by omega), UInt8.ofNat_toNat]
      rfl
    · cases h
  · rintro ⟨rfl, hv⟩
    rw [as_bytes_visible hv, if_pos, List.map_map]
    · congr 1
      conv_rhs => rw [← String.ofList_toList (s := s), ← List.map_id s.toList]
      congr 1
      refine List.map_congr_left fun c hc => ?_
      have := hv c hc
      unfold Visible at this
      rw [Function.comp_apply, UInt8.toNat_ofNat', Nat.mod_eq_of_lt (by omega)]
      exact Char.ofNat_toNat c
    · rw [List.all_map, List.all_eq_true]
      intro c hc
      have := hv c hc
      unfold Visible at this
      rw [Function.comp_apply, hvis, UInt8.toNat_ofNat', Nat.mod_eq_of_lt (by omega)]
      exact this

theorem real_documented : real.Documented where
  get_mem hg := by
    obtain ⟨as, bs, rfl, -⟩ := List.lookup_eq_some_iff.mp hg
    exact List.mem_append_right _ List.mem_cons_self
  get_none hg v hm := by
    simpa using List.lookup_eq_none_iff.mp hg _ hm
  to_str := real_to_str
  ct_eq := beq_iff_eq

end HttpCrates

/-! ## Credentials -/

/-- `BasicAuth`. -/
structure BasicAuth where
  user : String
  pass : String
  realm : String

/-- `Response`, with an empty body. -/
structure Response where
  status : Nat
  headers : List (String × String)

namespace BasicAuth

/-- `str::strip_prefix`. -/
def strip_prefix (pre s : String) : Option String :=
  if pre.toList <+: s.toList then some (String.ofList (s.toList.drop pre.toList.length)) else none

theorem strip_prefix_eq_some {pre s r : String} : strip_prefix pre s = some r ↔ s = pre ++ r := by
  unfold strip_prefix
  constructor
  · intro h
    split at h
    · rename_i hp
      obtain ⟨t, ht⟩ := hp
      rw [← ht, List.drop_left] at h
      rw [← Option.some.inj h, ← String.toList_inj, String.toList_append, String.toList_ofList, ht]
    · cases h
  · rintro rfl
    rw [String.toList_append, if_pos (List.prefix_append _ _), List.drop_left,
      String.ofList_toList]

/-- `BasicAuth::is_authorized`. -/
def is_authorized (c : HttpCrates) (decode : String → Option Bytes) (a : BasicAuth)
    (headers : HeaderMap) : Bool :=
  match (c.get headers "authorization").bind c.to_str with
  | none => false
  | some value =>
    match strip_prefix "Basic " value with
    | none => false
    | some encoded =>
      match decode encoded with
      | none => false
      | some decoded =>
        -- `position` of the first colon, then `split_at`
        match decoded.dropWhile (· ≠ 58) with
        | [] => false
        | _ :: pass =>
          let user := decoded.takeWhile (· ≠ 58)
          (user.length == (as_bytes a.user).length && c.ct_eq user (as_bytes a.user)) &&
            (pass.length == (as_bytes a.pass).length && c.ct_eq pass (as_bytes a.pass))

/-- `BasicAuth::challenge`. -/
def challenge (a : BasicAuth) : Response where
  status := 401
  headers :=
    [("www-authenticate", "Basic realm=\"" ++ a.realm ++ "\", charset=\"UTF-8\""),
      ("content-length", "0")]

end BasicAuth

end WebDavs
