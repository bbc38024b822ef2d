/-
`src/config.rs`: the configuration of the WebDAV server.

The fields are those the modelled part of the server reads. `clap` fills each of
them from an option or an environment variable; an `Option<String>` that is set
to the empty string is `some ""`, not `none`, whatever the comment on it says.
-/
import WebDavs.Mover

set_option autoImplicit false

namespace WebDavs

open Mover (PathBuf)

/-- `Config`. -/
structure Config where
  root : PathBuf
  cert : PathBuf
  key : PathBuf
  no_tls : Bool
  gen_cert : Bool
  cert_san : String
  auth_user : Option String
  auth_pass : Option String
  create_parents : Bool
  atomic_writes : Bool
  fsync : Bool
  update_secret : Option String
  update_cmd : String

/-- `Config::validate`. -/
def Config.validate (cfg : Config) : Except String Unit :=
  if cfg.auth_user.isSome ≠ cfg.auth_pass.isSome then
    .error "--auth-user and --auth-pass must be set together (or neither)"
  else if cfg.no_tls && cfg.gen_cert then
    .error "--gen-cert is meaningless together with --no-tls"
  else .ok ()

end WebDavs
