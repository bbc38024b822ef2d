/-
`src/auth.rs`, once more: whom `is_authorized` lets in.

The header is text, the credentials are bytes, and the colon between user and
password is looked for among the bytes. In UTF-8 a byte below 128 is a character of
its own, so a colon among the bytes is a colon in the text.
-/
import WebDavs.Codec
import WebDavs.Cut
import WebDavs.Serve

set_option autoImplicit false

namespace WebDavs

open Posix (Bytes)
open WebDavs.Codec WebDavs.Cut

/-! ## Text and its bytes -/

/-- In the encoding of a character a byte below 128 is the character itself. -/
theorem mem_utf8EncodeChar {c : Char} {b : UInt8} (h : b ∈ String.utf8EncodeChar c)
    (hb : b.toNat < 128) : b.toNat = c.toNat := by
  have hc : c.val.toNat = c.toNat := rfl
  -- the bytes of longer encodings
  have high : ∀ x, 128 ≤ x → x < 256 → b ≠ UInt8.ofNat x := by
    rintro x hx hx' rfl
    rw [UInt8.toNat_ofNat'] at hb
    omega
  unfold String.utf8EncodeChar at h
  dsimp only at h
  rw [hc] at h
  split at h
  · rw [List.mem_singleton.mp h, UInt8.toNat_ofNat']
    omega
  · split at h
    · simp only [List.mem_cons, List.not_mem_nil, or_false] at h
      rcases h with h | h
      · exact absurd h (high _ (by omega) (by omega))
      · exact absurd h (high _ (by omega) (by omega))
    · split at h
      · simp only [List.mem_cons, List.not_mem_nil, or_false] at h
        rcases h with h | h | h
        · exact absurd h (high _ (by omega) (by omega))
        · exact absurd h (high _ (by omega) (by omega))
        · exact absurd h (high _ (by omega) (by omega))
      · simp only [List.mem_cons, List.not_mem_nil, or_false] at h
        rcases h with h | h | h | h
        · exact absurd h (high _ (by omega) (by omega))
        · exact absurd h (high _ (by omega) (by omega))
        · exact absurd h (high _ (by omega) (by omega))
        · exact absurd h (high _ (by omega) (by omega))

/-- A colon among the bytes is a colon in the text. -/
theorem colon_mem_as_bytes {s : String} : 58 ∈ as_bytes s ↔ ':' ∈ s.toList := by
  rw [as_bytes_eq, List.mem_flatMap]
  constructor
  · rintro ⟨c, hc, hb⟩
    have hn := mem_utf8EncodeChar hb (by decide)
    obtain rfl : c = ':' := Char.toNat_inj.mp hn.symm
    exact hc
  · intro hc
    exact ⟨':', hc, by decide⟩

theorem visible_base64 {bs : Bytes} {c : Char} (h : c ∈ base64_encode bs) : Visible c := by
  have hall : (('=' :: alphabet).all fun c => decide (32 ≤ c.toNat ∧ c.toNat < 127)) = true := by
    decide
  exact .inl (of_decide_eq_true (List.all_eq_true.mp hall c (mem_base64_encode h)))

/-! ## Whom the server lets in -/

/-- The first `Authorization` header carries the credentials. -/
def Presents (c : HttpCrates) (decode : String → Option Bytes) (user pass : String)
    (headers : HeaderMap) : Prop :=
  ∃ enc, c.get headers "authorization" = some (as_bytes ("Basic " ++ enc)) ∧
    decode enc = some (as_bytes user ++ 58 :: as_bytes pass)

section

variable {c : HttpCrates} {decode : String → Option Bytes} (hc : c.Documented)
  (hdec : ∀ s bs, decode s = some bs ↔ s.toList = base64_encode bs)

include hc hdec

/-- The credentials let one in, unless the colon is found in the user name. -/
theorem is_authorized_iff (a : BasicAuth) (headers : HeaderMap) :
    a.is_authorized c decode headers = true ↔
      Presents c decode a.user a.pass headers ∧ ':' ∉ a.user.toList := by
  unfold BasicAuth.is_authorized Presents
  rw [← colon_mem_as_bytes]
  constructor
  · intro h
    split at h
    · cases h
    · rename_i value hv
      obtain ⟨v, hg, hs⟩ := Option.bind_eq_some_iff.mp hv
      obtain ⟨rfl, -⟩ := hc.to_str.mp hs
      split at h
      · cases h
      · rename_i enc henc
        obtain rfl := BasicAuth.strip_prefix_eq_some.mp henc
        split at h
        · cases h
        · rename_i decoded hd
          rcases dropWhile_ne_cases decoded 58 with ⟨-, hdrop⟩ | ⟨u, p, hu, rfl, htake, hdrop⟩
          -- no colon in what was decoded: refused
          · rw [hdrop] at h
            cases h
          · rw [hdrop, htake] at h
            simp only [Bool.and_eq_true, beq_iff_eq, hc.ct_eq] at h
            obtain ⟨⟨-, rfl⟩, -, rfl⟩ := h
            exact ⟨⟨enc, hg, hd⟩, hu⟩
  · rintro ⟨⟨enc, hg, hd⟩, hu⟩
    -- the header that a client sends is text, so `to_str` reads it
    have hvis : ∀ c ∈ ("Basic " ++ enc).toList, Visible c := by
      intro c hc
      rw [String.toList_append, List.mem_append] at hc
      rcases hc with hc | hc
      · have hall : ("Basic ".toList.all fun c => decide (32 ≤ c.toNat ∧ c.toNat < 127)) = true := by
          decide
        exact .inl (of_decide_eq_true (List.all_eq_true.mp hall c hc))
      · rw [(hdec enc _).mp hd] at hc
        exact visible_base64 hc
    rw [hg, Option.bind_some, hc.to_str.mpr ⟨rfl, hvis⟩]
    dsimp only
    rw [BasicAuth.strip_prefix_eq_some.mpr rfl]
    dsimp only
    rw [hd]
    dsimp only
    rw [dropWhile_ne hu (.inr rfl), takeWhile_ne hu (.inr rfl)]
    simp only [beq_self_eq_true, hc.ct_eq.mpr, Bool.and_self]

/-- **The configured credentials let one in, and nothing else does**, exactly when
there is no colon in the user name. -/
theorem auth_exact_iff (cfg : Config) (user pass : String) (hu : cfg.auth_user = some user)
    (hp : cfg.auth_pass = some pass) :
    ∃ a, cfg.auth = some a ∧
      ((∀ headers, a.is_authorized c decode headers = true ↔ Presents c decode user pass headers) ↔
        ':' ∉ user.toList) := by
  refine ⟨⟨user, pass, "nzk-webdavs"⟩, ?_, ?_⟩
  · unfold Config.auth
    rw [hu, hp]
  constructor
  · intro h
    -- one who presents them
    let enc := String.ofList (base64_encode (as_bytes user ++ 58 :: as_bytes pass))
    have hpres : Presents c decode user pass [("authorization", as_bytes ("Basic " ++ enc))] :=
      ⟨enc, hc.get_single .., (hdec enc _).mpr String.toList_ofList⟩
    exact ((is_authorized_iff hc hdec _ _).mp ((h _).mpr hpres)).2
  · intro hno headers
    rw [is_authorized_iff hc hdec]
    exact and_iff_left hno

end

/-- The decoder of the standard alphabet. -/
def standard (s : String) : Option Bytes := base64_decode s.toList

theorem standard_eq_some (s : String) (bs : Bytes) :
    standard s = some bs ↔ s.toList = base64_encode bs := base64_decode_eq_some

/-- The user `u` with the password `p` gets in. -/
theorem auth_exact_iff_up : ∃ a, no_secret.auth = some a ∧
    ∀ headers, a.is_authorized .real standard headers = true ↔
      Presents .real standard "u" "p" headers := by
  obtain ⟨a, ha, hiff⟩ :=
    auth_exact_iff HttpCrates.real_documented standard_eq_some no_secret "u" "p" rfl rfl
  exact ⟨a, ha, hiff.mpr (by decide)⟩

/-- A user name with a colon. -/
def colon_user : Config := { no_secret with auth_user := some "d:u" }

/-- The configuration is accepted and locks its user out. -/
theorem colon_user_locked_out : ¬ ∀ (cfg : Config) (user pass : String), cfg.validate = .ok () →
    cfg.auth_user = some user → cfg.auth_pass = some pass → ∀ a, cfg.auth = some a →
      ∀ headers, a.is_authorized .real standard headers = true ↔
        Presents .real standard user pass headers := by
  intro h
  have henc : standard "ZDp1OnA=" = some (as_bytes "d:u" ++ 58 :: as_bytes "p") := by decide +kernel
  have hpres : Presents .real standard "d:u" "p"
      [("authorization", as_bytes ("Basic " ++ "ZDp1OnA="))] :=
    ⟨_, rfl, henc⟩
  have hin := (h colon_user "d:u" "p" rfl rfl rfl _ rfl _).mpr hpres
  exact ((is_authorized_iff HttpCrates.real_documented standard_eq_some _ _).mp hin).2 (by decide)

end WebDavs
