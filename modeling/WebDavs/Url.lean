/-
`src/bin/file-mover.rs`: from a WebDAV URL to the path below a mount.

`webdav_url_to_path` cuts its text three times: behind the last `@`, at the first
`/`, at the colons. Each cut is right as long as its separator does not occur in
another part of the URL; where it does, the parts that come out are others.
-/
import WebDavs.Auth
import WebDavs.Cut
import WebDavs.Mover

set_option autoImplicit false

namespace WebDavs.Mover

open WebDavs.Posix
open WebDavs.Cut
open BasicAuth

/-! ## Paths from text -/

/-- `Path::components` on one piece between separators, the first of its path or
not. -/
def component (first : Bool) (piece : List Char) : Option Component :=
  if piece = [] then none
  else if piece = ['.'] then if first then some .curDir else none
  else if piece = ['.', '.'] then some .parentDir
  else some (.normal (String.ofList piece))

/-- `Path::components`. -/
def components (text : List Char) : Path :=
  let root := decide (text.head? = some '/')
  { root
    comps := (text.splitOn '/').zipIdx.filterMap fun p => component (p.2 = 0 && !root) p.1 }

/-- What is behind the last name of a spelling that ends in a name: separators, and single
dots between them. -/
def tail_of (text : List Char) : Path.Tail :=
  let cut := text.length - (cut_tail text.reverse).length
  match (components text).comps.getLast? with
  | some (.normal _) =>
    if cut = 0 then .none else if '.' ∈ text.reverse.take cut then .dot else .slash
  | _ => .none

/-- `PathBuf::from`. -/
def PathBuf.of (text : String) : PathBuf where
  path := components text.toList
  text := text
  tail := tail_of text.toList

example : (PathBuf.of "/a/b").tail = .none ∧ (PathBuf.of "/a/b/").tail = .slash ∧
    (PathBuf.of "/a/b/./").tail = .dot ∧ (PathBuf.of "/a/../").tail = .none := by
  decide

/-- `join`, for any text: an absolute one takes the place of the path. -/
def PathBuf.join_text (p : PathBuf) (rel : String) : PathBuf :=
  if rel.toList.head? = some '/' then .of rel else .of (p.join rel).text

/-! ## `webdav_url_to_path` -/

/-- What the mover reads of its environment. -/
structure Env where
  HOME : Option String
  NZK_WEBDAVS_URL_A : Option String
  NZK_WEBDAVS_URL_B : Option String

namespace Env

/-- `home`. -/
def home (env : Env) : PathBuf := .of (env.HOME.getD "/")

/-- `roots`. -/
def roots (env : Env) : String × String :=
  ((env.home.join_text "webdav").text, (env.home.join_text "webdav-local").text)

/-- The first server's host and port. -/
def url_a (env : Env) : String := env.NZK_WEBDAVS_URL_A.getD "192.0.2.1:51337"

/-- The second server's host and port. -/
def url_b (env : Env) : String := env.NZK_WEBDAVS_URL_B.getD "192.0.2.2:51337"

end Env

/-- `format!("{host}:{port}")`: what is before the first colon and what is between
it and the next. -/
def hostport (authority : List Char) : List Char :=
  let host := authority.takeWhile (· ≠ ':')
  let port := ((authority.dropWhile (· ≠ ':')).drop 1).takeWhile (· ≠ ':')
  host ++ ':' :: port

/-- The root of the mount that stands for a server. -/
def mount (env : Env) (server : List Char) : Option PathBuf :=
  if server = env.url_a.toList then some (.of env.roots.1)
  else if server = env.url_b.toList then some (.of env.roots.2)
  else none

/-- `trim_start_matches('/')`. -/
def without_slashes (path : List Char) : String := String.ofList (path.dropWhile (· = '/'))

/-- The URL without its scheme, which is one of two. -/
def after_scheme (url : String) : Option String :=
  let secure := strip_prefix "webdavs://" url
  secure.or <| strip_prefix "webdav://" url

/-- `webdav_url_to_path`. -/
def webdav_url_to_path (env : Env) (url : String) : Option PathBuf :=
  match after_scheme url with
  | none => none
  | some rest =>
    let after_at := afterLast '@' rest.toList
    let authority := after_at.takeWhile (· ≠ '/')
    let path := after_at.dropWhile (· ≠ '/')
    (mount env (hostport authority)).map fun root => root.join_text (without_slashes path)

/-- `resolve_path`: any other text is a path. -/
def resolve_path (env : Env) (p : String) : PathBuf :=
  if "webdav://".toList <+: p.toList ∨ "webdavs://".toList <+: p.toList then
    (webdav_url_to_path env p).getD (.of p)
  else .of p

/-! ## URLs by their parts -/

/-- One of the two servers. -/
def IsServer (env : Env) (s : List Char) : Prop := s = env.url_a.toList ∨ s = env.url_b.toList

instance (env : Env) (s : List Char) : Decidable (IsServer env s) := by
  unfold IsServer
  infer_instance

/-- A URL of the kind a file manager shows. -/
structure WebDavUrl where
  tls : Bool
  userinfo : Option String
  authority : String
  path : String
  userinfo_ok : ∀ u, userinfo = some u → '/' ∉ u.toList
  authority_ok : '/' ∉ authority.toList ∧ '@' ∉ authority.toList
  path_ok : path.toList = [] ∨ path.toList.head? = some '/'

namespace WebDavUrl

def scheme (u : WebDavUrl) : String := if u.tls then "webdavs://" else "webdav://"

/-- The user information with its separator. -/
def user (u : WebDavUrl) : String :=
  match u.userinfo with
  | some user => user ++ "@"
  | none => ""

/-- The URL written out. -/
def text (u : WebDavUrl) : String := u.scheme ++ (u.user ++ (u.authority ++ u.path))

/-- What the URL stands for: the path without its leading slashes, below the mount
of its server. -/
def target (env : Env) (u : WebDavUrl) : Option PathBuf :=
  (mount env u.authority.toList).map fun root => root.join_text (without_slashes u.path.toList)

/-- When the cuts are right. A server has one colon. What is no server's is not
taken for one, a missing colon added or what follows a second one left out. And a
path with an `@` is only right where nothing is to be found either way. -/
def Plain (env : Env) (u : WebDavUrl) : Prop :=
  if '@' ∈ u.path.toList then
    ¬ IsServer env u.authority.toList ∧
      ¬ IsServer env (hostport ((afterLast '@' u.path.toList).takeWhile (· ≠ '/')))
  else if IsServer env u.authority.toList then u.authority.toList.count ':' = 1
  else ¬ IsServer env (hostport u.authority.toList)

end WebDavUrl

/-! ## What the cuts find -/

/-- One scheme is not taken for the other. -/
theorem after_scheme_eq (u : WebDavUrl) (s : String) : after_scheme (u.scheme ++ s) = some s := by
  unfold after_scheme WebDavUrl.scheme
  split
  · rw [strip_prefix_eq_some.mpr rfl]
    rfl
  · have hne : strip_prefix "webdavs://" ("webdav://" ++ s) = none := by
      unfold strip_prefix
      rw [String.toList_append, if_neg]
      intro h
      simp at h
    rw [hne, strip_prefix_eq_some.mpr rfl]
    rfl

/-- The user information is cut off, if nothing behind it holds an `@`. -/
theorem afterLast_rest (u : WebDavUrl) (h : '@' ∉ u.path.toList) :
    afterLast '@' (u.user ++ (u.authority ++ u.path)).toList
      = u.authority.toList ++ u.path.toList := by
  rw [String.toList_append, String.toList_append]
  refine afterLast_append _ ?_ ?_
  · rw [List.mem_append, not_or]
    exact ⟨u.authority_ok.2, h⟩
  · unfold WebDavUrl.user
    split
    · exact .inr (by simp)
    · exact .inl rfl

/-- Otherwise the path is cut. -/
theorem afterLast_rest_of_mem (u : WebDavUrl) (h : '@' ∈ u.path.toList) :
    afterLast '@' (u.user ++ (u.authority ++ u.path)).toList = afterLast '@' u.path.toList := by
  rw [String.toList_append, String.toList_append, ← List.append_assoc]
  exact afterLast_of_mem _ h

/-- A host, a colon and a port are put together again to what they were. -/
theorem hostport_eq {s : List Char} : hostport s = s ↔ s.count ':' = 1 := by
  unfold hostport
  rcases dropWhile_ne_cases s ':' with ⟨hs, -⟩ | ⟨a, r, ha, rfl, htake, hdrop⟩
  · rw [List.count_eq_zero.mpr hs]
    refine ⟨fun h => absurd ?_ hs, fun h => by omega⟩
    rw [← h]
    simp
  · rw [htake, hdrop, List.count_append, List.count_cons_self, List.count_eq_zero.mpr ha]
    rw [List.append_cancel_left_eq, List.cons_inj_right, List.drop_one, List.tail_cons,
      List.takeWhile_eq_self_iff]
    constructor
    · intro h
      have hr : ':' ∉ r := fun hm => by simpa using h _ hm
      rw [List.count_eq_zero.mpr hr]
    · intro h
      exact all_ne (List.count_eq_zero.mp (by omega))

/-! ## The two mounts -/

theorem join_text_relative (p : PathBuf) (s : List Char) :
    p.join_text (without_slashes s) = .of (p.join (without_slashes s)).text := by
  unfold PathBuf.join_text
  rw [if_neg]
  intro h
  rw [without_slashes, String.toList_ofList] at h
  have := List.head?_dropWhile_not (· = '/') s
  rw [h] at this
  simp at this

/-- A join puts something before the name that does not depend on the name. -/
theorem join_base (p : PathBuf) : ∃ b, ∀ name, (p.join name).text = b ++ name := by
  by_cases h : p.text = "" ∨ p.text.toList.getLast? = some '/'
  · exact ⟨p.text, fun name => if_pos h⟩
  · exact ⟨p.text ++ "/", fun name => if_neg h⟩

theorem join_text_plain (p : PathBuf) {n : String} (h : n.toList.head? ≠ some '/') :
    p.join_text n = .of (p.join n).text := by
  unfold PathBuf.join_text
  rw [if_neg h]

/-- Below a mount the path goes on behind a separator. -/
theorem mount_join (b n : String) (h : n ≠ "") (hn : n.toList.getLast? ≠ some '/') (s : List Char) :
    (PathBuf.of (b ++ n)).join_text (without_slashes s)
      = .of (b ++ n ++ "/" ++ without_slashes s) := by
  rw [join_text_relative]
  congr 1
  refine if_neg ?_
  have hne : n.toList ≠ [] := by simpa using h
  intro hc
  rcases hc with hc | hc
  · have := congrArg String.toList hc
    simp [PathBuf.of, hne] at this
  · rw [PathBuf.of, String.toList_append, List.getLast?_append_of_ne_nil _ hne] at hc
    exact hn hc

/-- Where the two roots lie. -/
theorem roots_eq (env : Env) : ∃ b, env.roots = (b ++ "webdav", b ++ "webdav-local") := by
  obtain ⟨b, hb⟩ := join_base env.home
  refine ⟨b, ?_⟩
  unfold Env.roots
  rw [join_text_plain _ (by decide), join_text_plain _ (by decide), PathBuf.of, PathBuf.of, hb, hb]

/-- Where a server's paths lead. -/
theorem mount_cases {env : Env} {b : String} (hb : env.roots = (b ++ "webdav", b ++ "webdav-local"))
    (s : List Char) :
    (s = env.url_a.toList ∧ ∀ r, (mount env s).map (·.join_text (without_slashes r))
        = some (.of (b ++ "webdav" ++ "/" ++ without_slashes r))) ∨
      (s = env.url_b.toList ∧ s ≠ env.url_a.toList ∧
        ∀ r, (mount env s).map (·.join_text (without_slashes r))
          = some (.of (b ++ "webdav-local" ++ "/" ++ without_slashes r))) ∨
      (¬ IsServer env s ∧ ∀ r, (mount env s).map (·.join_text (without_slashes r)) = none) := by
  unfold mount IsServer
  rw [hb]
  by_cases h₁ : s = env.url_a.toList
  · refine .inl ⟨h₁, fun r => ?_⟩
    rw [if_pos h₁, Option.map_some, mount_join b "webdav" (by decide) (by decide)]
  · by_cases h₂ : s = env.url_b.toList
    · refine .inr (.inl ⟨h₂, h₁, fun r => ?_⟩)
      rw [if_neg h₁, if_pos h₂, Option.map_some, mount_join b "webdav-local" (by decide) (by decide)]
    · refine .inr (.inr ⟨by simp [h₁, h₂], fun r => ?_⟩)
      rw [if_neg h₁, if_neg h₂, Option.map_none]

/-- They are apart for the two servers, and nowhere for any other text. -/
theorem mount_join_inj (env : Env) (s s' r r' : List Char) :
    (mount env s).map (·.join_text (without_slashes r))
        = (mount env s').map (·.join_text (without_slashes r')) ↔
      (¬ IsServer env s ∧ ¬ IsServer env s') ∨
        (s = s' ∧ IsServer env s ∧ without_slashes r = without_slashes r') := by
  obtain ⟨b, hb⟩ := roots_eq env
  -- the two roots differ behind the same letters
  have hne : ∀ x y : String, b ++ "webdav" ++ "/" ++ x ≠ b ++ "webdav-local" ++ "/" ++ y := by
    intro x y h
    have := congrArg String.toList h
    simp at this
  have hof : ∀ x y : String, some (PathBuf.of x) = some (.of y) ↔ x = y := by
    intro x y
    exact ⟨fun h => congrArg PathBuf.text (Option.some.inj h), fun h => by rw [h]⟩
  have hsame : ∀ n x y : String, b ++ n ++ "/" ++ x = b ++ n ++ "/" ++ y ↔ x = y := by
    intro n x y
    constructor
    · intro h
      have := congrArg String.toList h
      rw [String.toList_append, String.toList_append (s := b ++ n ++ "/")] at this
      exact String.toList_inj.mp (List.append_cancel_left this)
    · rintro rfl
      rfl
  rcases mount_cases hb s with ⟨rfl, h⟩ | ⟨rfl, hab, h⟩ | ⟨hs, h⟩
  · rcases mount_cases hb s' with ⟨rfl, h'⟩ | ⟨rfl, hab', h'⟩ | ⟨hs', h'⟩
    · rw [h, h', hof, hsame]
      simp [IsServer]
    · rw [h, h', hof]
      simp [IsServer, hne, Ne.symm hab']
    · rw [h, h']
      grind [IsServer]
  · rcases mount_cases hb s' with ⟨rfl, h'⟩ | ⟨rfl, hab', h'⟩ | ⟨hs', h'⟩
    · rw [h, h', hof]
      simp [IsServer, (hne _ _).symm, hab]
    · rw [h, h', hof, hsame]
      simp [IsServer]
    · rw [h, h']
      grind [IsServer]
  · rcases mount_cases hb s' with ⟨rfl, h'⟩ | ⟨rfl, hab', h'⟩ | ⟨hs', h'⟩
    · rw [h, h']
      grind [IsServer]
    · rw [h, h']
      grind [IsServer]
    · rw [h, h']
      simp [hs, hs']

/-! ## URLs resolve to their mounts -/

/-- When the cuts come out where the parts end. -/
theorem webdav_url_to_path_iff (env : Env) (u : WebDavUrl) :
    webdav_url_to_path env u.text = u.target env ↔ u.Plain env := by
  unfold webdav_url_to_path WebDavUrl.text
  rw [after_scheme_eq]
  dsimp only
  unfold WebDavUrl.target WebDavUrl.Plain
  rw [mount_join_inj]
  by_cases hat : '@' ∈ u.path.toList
  · rw [if_pos hat, afterLast_rest_of_mem u hat]
    -- what is left of the path has no `@` any more
    have hne : without_slashes ((afterLast '@' u.path.toList).dropWhile (· ≠ '/'))
        ≠ without_slashes u.path.toList := by
      intro h
      have hl := congrArg String.toList h
      rw [without_slashes, without_slashes, String.toList_ofList, String.toList_ofList] at hl
      refine not_mem_afterLast (c := '@') (s := u.path.toList) ?_
      refine List.dropWhile_subset (· ≠ '/') (List.dropWhile_subset (· = '/') ?_)
      rw [hl]
      exact mem_dropWhile_of_mem hat (by decide)
    constructor
    · intro h
      rcases h with ⟨h₁, h₂⟩ | ⟨-, -, h⟩
      · exact ⟨h₂, h₁⟩
      · exact absurd h hne
    · intro h
      exact .inl ⟨h.2, h.1⟩
  · rw [if_neg hat, afterLast_rest u hat, takeWhile_ne u.authority_ok.1 u.path_ok,
      dropWhile_ne u.authority_ok.1 u.path_ok]
    by_cases hs : IsServer env u.authority.toList
    · rw [if_pos hs]
      constructor
      · intro h
        rcases h with ⟨-, h⟩ | ⟨h, -⟩
        · exact absurd hs h
        · exact hostport_eq.mp h
      · intro h
        have heq := hostport_eq.mpr h
        exact .inr ⟨heq, by rwa [heq], rfl⟩
    · rw [if_neg hs]
      constructor
      · intro h
        rcases h with ⟨h, -⟩ | ⟨h, h', -⟩
        · exact h
        · rw [h] at h'
          exact absurd h' hs
      · intro h
        exact .inl ⟨h, hs⟩

/-- In the path box: the URL resolved, or its text as a path where there is nothing
to resolve it to. -/
theorem resolve_path_url (env : Env) (u : WebDavUrl) (h : u.Plain env) :
    resolve_path env u.text = (u.target env).getD (.of u.text) := by
  unfold resolve_path
  rw [(webdav_url_to_path_iff env u).mpr h, if_pos]
  unfold WebDavUrl.text WebDavUrl.scheme
  rw [String.toList_append]
  split
  · exact .inr (List.prefix_append _ _)
  · exact .inl (List.prefix_append _ _)

/-- **A URL resolves to the path below its server's mount**, or to nothing if its
server is neither of the two, exactly when its parts can be told apart by the
separators alone. Then the path box takes it for that path. -/
theorem url_resolves_iff (env : Env) (u : WebDavUrl) :
    (webdav_url_to_path env u.text = u.target env ↔ u.Plain env) ∧
      (u.Plain env → resolve_path env u.text = (u.target env).getD (.of u.text)) :=
  ⟨webdav_url_to_path_iff env u, resolve_path_url env u⟩

/-- An `@` in a file name of the first server. -/
def photo : WebDavUrl where
  tls := true
  userinfo := none
  authority := "192.0.2.1:51337"
  path := "/me@home.jpg"
  userinfo_ok := by simp
  authority_ok := by decide
  path_ok := by decide

/-- With the two servers as they are by default, the URL of that file resolves to
nothing. -/
theorem photo_not_found : ¬ ∀ (env : Env) (u : WebDavUrl), env.url_a ≠ env.url_b →
    webdav_url_to_path env u.text = u.target env := by
  intro h
  have hp := (webdav_url_to_path_iff _ photo).mp (h ⟨some "/home/nzk", none, none⟩ photo (by decide))
  unfold WebDavUrl.Plain at hp
  rw [if_pos (by decide)] at hp
  exact hp.1 (by decide)

end WebDavs.Mover
