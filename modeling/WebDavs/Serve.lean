/-
`src/server.rs`: one connection (`serve`, `serve_conn`).

The requests of a connection are answered one after another. Two things can come
of a request besides its response: the update command is started, or the
request goes to the WebDAV handler. An exchange writes both down. The handler is
a crate's; it keeps a state of its own, which other connections change as well,
so what it answers is an argument that may differ from request to request.

The webhook compares the secret with the header's value, and with the empty
string when there is no header that reads as text. An empty secret is therefore
no secret (`update_needs_secret_iff`).
-/
import WebDavs.Auth
import WebDavs.Config

set_option autoImplicit false

namespace WebDavs

open Posix (Bytes)

/-- `WEBHOOK_PATH`. -/
def WEBHOOK_PATH : String := "/.nzk-webdavs-update"

/-- The part of a request that `serve_conn` reads. -/
structure Request where
  method : String
  path : String
  headers : HeaderMap

/-- What a request sets off besides its response. -/
inductive Effect where
  /-- `sh -c script`, detached. -/
  | spawn (script : String)
  /-- `handler.handle(req)`. -/
  | handle
deriving DecidableEq

/-- A request with what came of it. -/
structure Exchange where
  req : Request
  effects : List Effect
  resp : Response

/-- The credentials `serve` builds from the configuration. -/
def Config.auth (cfg : Config) : Option BasicAuth :=
  match cfg.auth_user, cfg.auth_pass with
  | some user, some pass => some ⟨user, pass, "nzk-webdavs"⟩
  | _, _ => none

/-- The webhook `serve` builds from the configuration: its secret and its
command. -/
def Config.webhook (cfg : Config) : Option (String × String) :=
  cfg.update_secret.map fun secret => (secret, cfg.update_cmd)

/-- The update command, as the shell gets it. -/
def update_script (cmd : String) : String :=
  "nohup '" ++ cmd ++ "' >/tmp/nzk-webdavs-update.log 2>&1 &"

/-- The token of a request: the header's value, or the empty string. -/
def update_token (c : HttpCrates) (req : Request) : String :=
  ((c.get req.headers "x-nzk-update-token").bind c.to_str).getD ""

section Conn

variable (c : HttpCrates) (decode : String → Option Bytes) (auth : Option BasicAuth)
  (webhook : Option (String × String))

/-- The service of `serve_conn`; `handled` is what the handler would answer. -/
def service (req : Request) (handled : Response) : Exchange :=
  if req.method = "POST" ∧ req.path = WEBHOOK_PATH then
    match webhook with
    | some (secret, cmd) =>
      if c.ct_eq (as_bytes (update_token c req)) (as_bytes secret) then
        ⟨req, [.spawn (update_script cmd)], ⟨202, []⟩⟩
      else ⟨req, [], ⟨403, []⟩⟩
    | none => ⟨req, [], ⟨404, []⟩⟩
  else
    match auth with
    | some a =>
      if a.is_authorized c decode req.headers then ⟨req, [.handle], handled⟩
      else ⟨req, [], a.challenge⟩
    | none => ⟨req, [.handle], handled⟩

/-- `serve_conn`: the exchanges of a connection. -/
def serve_conn (reqs : List (Request × Response)) : List Exchange :=
  reqs.map fun r => service c decode auth webhook r.1 r.2

end Conn

/-! ## Who gets through -/

/-- What the documentation promises of every exchange: the update command is
started for a `POST` to the reserved path that carries the secret, and for
nothing else; and nobody reaches the handler without credentials, when there are
any. -/
structure Exchange.Guarded (x : Exchange) (c : HttpCrates) (decode : String → Option Bytes)
    (cfg : Config) : Prop where
  post : ∀ script, .spawn script ∈ x.effects → x.req.method = "POST" ∧ x.req.path = WEBHOOK_PATH
  secret : ∀ script, .spawn script ∈ x.effects →
    ∃ v, ("x-nzk-update-token", v) ∈ x.req.headers ∧ c.to_str v = cfg.update_secret
  credentials : .handle ∈ x.effects →
    ∀ a, cfg.auth = some a → a.is_authorized c decode x.req.headers = true

section

variable {c : HttpCrates} {decode : String → Option Bytes}

/-- How a request can start the update command. -/
theorem spawn_service (hc : c.Documented) {auth : Option BasicAuth}
    {webhook : Option (String × String)} {req : Request} {handled : Response} {script : String}
    (h : .spawn script ∈ (service c decode auth webhook req handled).effects) :
    req.method = "POST" ∧ req.path = WEBHOOK_PATH ∧
      ∃ cmd, webhook = some (update_token c req, cmd) := by
  unfold service at h
  by_cases hp : req.method = "POST" ∧ req.path = WEBHOOK_PATH
  · rw [if_pos hp] at h
    refine ⟨hp.1, hp.2, ?_⟩
    cases webhook with
    | none => cases h
    | some w =>
      obtain ⟨secret, cmd⟩ := w
      by_cases ht : c.ct_eq (as_bytes (update_token c req)) (as_bytes secret) = true
      · exact ⟨cmd, by rw [hc.ct_eq_iff.mp ht]⟩
      · simp only [if_neg ht, List.not_mem_nil] at h
  · rw [if_neg hp] at h
    cases auth with
    | none => simp only [List.mem_singleton, reduceCtorEq] at h
    | some a =>
      by_cases ha : a.is_authorized c decode req.headers = true
      · simp only [if_pos ha, List.mem_singleton, reduceCtorEq] at h
      · simp only [if_neg ha, List.not_mem_nil] at h

/-- Nobody reaches the handler past `is_authorized`. -/
theorem handle_service {auth : Option BasicAuth} {webhook : Option (String × String)}
    {req : Request} {handled : Response}
    (h : .handle ∈ (service c decode auth webhook req handled).effects) (a : BasicAuth)
    (ha : auth = some a) : a.is_authorized c decode req.headers = true := by
  unfold service at h
  by_cases hp : req.method = "POST" ∧ req.path = WEBHOOK_PATH
  · rw [if_pos hp] at h
    cases webhook with
    | none => cases h
    | some w =>
      obtain ⟨secret, cmd⟩ := w
      by_cases ht : c.ct_eq (as_bytes (update_token c req)) (as_bytes secret) = true
      · simp only [if_pos ht, List.mem_singleton, reduceCtorEq] at h
      · simp only [if_neg ht, List.not_mem_nil] at h
  · rw [if_neg hp, ha] at h
    by_contra hn
    simp only [if_neg hn, List.not_mem_nil] at h

/-- A token that is not empty is the value of a header. -/
theorem header_of_token (hc : c.Documented) {req : Request} (h : update_token c req ≠ "") :
    ∃ v, ("x-nzk-update-token", v) ∈ req.headers ∧ c.to_str v = some (update_token c req) := by
  unfold update_token at h ⊢
  cases hg : c.get req.headers "x-nzk-update-token" with
  | none =>
    rw [hg] at h
    exact absurd rfl h
  | some v =>
    refine ⟨v, hc.get_mem hg, ?_⟩
    rw [hg] at h
    cases hs : c.to_str v with
    | none =>
      rw [Option.bind_some, hs] at h
      exact absurd rfl h
    | some s => simp only [Option.bind_some, hs, Option.getD_some]

/-- A request to the webhook that brings no token at all. -/
def bare_post : Request := ⟨"POST", WEBHOOK_PATH, []⟩

/-- With an empty secret it starts the update command. -/
theorem bare_post_spawns (hc : c.Documented) (auth : Option BasicAuth) (cmd : String)
    (handled : Response) :
    (service c decode auth (some ("", cmd)) bare_post handled).effects =
      [.spawn (update_script cmd)] := by
  have hnone : c.get [] "x-nzk-update-token" = none := by
    cases hg : c.get [] "x-nzk-update-token" with
    | none => rfl
    | some v => cases hc.get_mem hg
  have htoken : update_token c bare_post = "" := by
    unfold update_token bare_post
    rw [hnone]
    rfl
  have ht : c.ct_eq (as_bytes (update_token c bare_post)) (as_bytes "") = true :=
    hc.ct_eq_iff.mpr htoken
  unfold service
  rw [if_pos ⟨rfl, rfl⟩]
  simp only [if_pos ht]

theorem service_req (auth : Option BasicAuth) (webhook : Option (String × String)) (req : Request)
    (handled : Response) : (service c decode auth webhook req handled).req = req := by
  unfold service
  by_cases hp : req.method = "POST" ∧ req.path = WEBHOOK_PATH
  · rw [if_pos hp]
    cases webhook with
    | none => rfl
    | some w =>
      dsimp only
      split <;> rfl
  · rw [if_neg hp]
    cases auth with
    | none => rfl
    | some a =>
      dsimp only
      split <;> rfl

theorem not_guarded_of_empty (hc : c.Documented) {cfg : Config} (h : cfg.update_secret = some "")
    (handled : Response) :
    ¬ (service c decode cfg.auth cfg.webhook bare_post handled).Guarded c decode cfg := by
  intro hg
  have hw : cfg.webhook = some ("", cfg.update_cmd) := by
    rw [Config.webhook, h, Option.map_some]
  have hs := hg.secret (update_script cfg.update_cmd)
  rw [service_req, hw, bare_post_spawns hc] at hs
  obtain ⟨v, hv, _⟩ := hs List.mem_cons_self
  -- there is no header at all
  cases hv

theorem guarded_of_ne_empty (hc : c.Documented) {cfg : Config} (h : cfg.update_secret ≠ some "")
    (req : Request) (handled : Response) :
    (service c decode cfg.auth cfg.webhook req handled).Guarded c decode cfg := by
  constructor
  · intro script hs
    obtain ⟨hm, hp, _⟩ := spawn_service hc hs
    rw [service_req]
    exact ⟨hm, hp⟩
  · intro script hs
    obtain ⟨_, _, cmd, hw⟩ := spawn_service hc hs
    obtain ⟨secret, hsec, he⟩ := Option.map_eq_some_iff.mp hw
    have ht : update_token c req = secret := (Prod.mk.inj he).1.symm
    have hne : update_token c req ≠ "" := by
      intro hz
      exact h (by rw [hsec, ← ht, hz])
    rw [service_req, hsec, ← ht]
    exact header_of_token hc hne
  · intro hh a ha
    rw [service_req]
    exact handle_service hh a ha

end

/-- **Whom the webhook obeys.** Whatever is configured and whatever a client
sends: the update command takes the secret, and the handler the credentials,
exactly when the secret is not the empty string. -/
theorem update_needs_secret_iff (c : HttpCrates) (hc : c.Documented)
    (decode : String → Option Bytes) (cfg : Config) :
    (∀ reqs, ∀ x ∈ serve_conn c decode cfg.auth cfg.webhook reqs, x.Guarded c decode cfg) ↔
      cfg.update_secret ≠ some "" := by
  constructor
  · intro h he
    exact not_guarded_of_empty hc he ⟨200, []⟩ (h [(bare_post, ⟨200, []⟩)] _ List.mem_cons_self)
  · intro h reqs x hx
    obtain ⟨r, _, rfl⟩ := List.mem_map.mp hx
    exact guarded_of_ne_empty hc h r.1 r.2

/-- A configuration with credentials whose `NZK_WEBDAVS_UPDATE_SECRET` is set to
nothing. -/
def no_secret : Config where
  root := ⟨Posix.Path.abs ["srv"], "/srv", .none⟩
  cert := ⟨Posix.Path.abs ["etc", "server.crt"], "/etc/server.crt", .none⟩
  key := ⟨Posix.Path.abs ["etc", "server.key"], "/etc/server.key", .none⟩
  no_tls := false
  gen_cert := false
  cert_san := "localhost"
  auth_user := some "u"
  auth_pass := some "p"
  create_parents := true
  atomic_writes := true
  fsync := false
  update_secret := some ""
  update_cmd := "scripts/update.sh"

/-- The same with a secret. -/
def with_secret : Config := { no_secret with update_secret := some "s" }

/-- It guards the update command: the request that has no token starts nothing. -/
theorem update_needs_secret_iff_set :
    (serve_conn .real (fun _ => none) with_secret.auth with_secret.webhook
      [(bare_post, ⟨200, []⟩)]).map Exchange.effects = [[]] ∧
      ∀ reqs, ∀ x ∈ serve_conn .real (fun _ => none) with_secret.auth with_secret.webhook reqs,
        x.Guarded .real (fun _ => none) with_secret := by
  refine ⟨by decide +kernel, ?_⟩
  exact (update_needs_secret_iff .real HttpCrates.real_documented _ with_secret).mpr (by decide)

/-- It is accepted, and anyone can start the update command. -/
theorem no_secret_spawns :
    no_secret.validate = .ok () ∧
      (serve_conn .real (fun _ => none) no_secret.auth no_secret.webhook
        [(bare_post, ⟨200, []⟩)]).map Exchange.effects =
          [[.spawn "nohup 'scripts/update.sh' >/tmp/nzk-webdavs-update.log 2>&1 &"]] ∧
      ¬ ∀ x ∈ serve_conn .real (fun _ => none) no_secret.auth no_secret.webhook
        [(bare_post, ⟨200, []⟩)], x.Guarded .real (fun _ => none) no_secret := by
  refine ⟨rfl, by decide +kernel, ?_⟩
  intro h
  exact not_guarded_of_empty HttpCrates.real_documented rfl ⟨200, []⟩ (h _ List.mem_cons_self)

end WebDavs
