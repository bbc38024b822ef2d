/-
A tree that is dropped on a panel, from the walk over it to the tree on the server.

`walkEntry` flattens the tree to a list of directories and files, `uploadAll` asks
for the directories first and then sends the files, and `route` picks the handler by
method and path. The page asks for its directories with `GET`, and `mkdir` has a
route for `POST` only; the error is swallowed. So the only directories that are made
are those that `handle_put` makes above a file, and a directory that holds none is
missing in the end (`upload_rebuilds`, `empty_directory_lost`).
-/
import Mathlib.Data.List.Pairwise
import WebDavs.Puts
import WebDavs.Query
import WebDavs.Url

set_option autoImplicit false

namespace WebDavs.Drops

open WebDavs.Posix WebDavs.Posix.FileTree WebDavs.Mover WebDavs.Sudo.BrowserPut WebDavs.Query
open WebDavs.Sudo hiding handle_put

/-! ## The page -/

/-- An entry of what is dropped on a panel. `readEntries` gives those of a directory in
batches, and then an empty one. -/
inductive Dropped where
  | file (name : String) (content : Bytes)
  | dir (name : String) (batches : List (List Dropped))

/-- `entry.name`. -/
def Dropped.name : Dropped → String
  | .file name _ => name
  | .dir name _ => name

/-- What `walkEntry` pushes: `{ dir }`, or `{ path, file }`. -/
inductive Item where
  | dir (path : String)
  | file (path : String) (content : Bytes)

mutual

/-- `walkEntry`. -/
def walkEntry (base : String) : Dropped → List Item
  | .file name content => [.file (base ++ name) content]
  | .dir name batches => .dir (base ++ name) :: walk_batches (base ++ name ++ "/") batches

/-- The loop over the batches, up to an empty one. -/
def walk_batches (base : String) : List (List Dropped) → List Item
  | [] => []
  | batch :: batches =>
    if batch.isEmpty then [] else walk_batch base batch ++ walk_batches base batches

/-- The loop over one batch. -/
def walk_batch (base : String) : List Dropped → List Item
  | [] => []
  | e :: es => walkEntry base e ++ walk_batch base es

end

/-- A request as `fetch` sends it. -/
structure Request where
  method : String
  url : String
  body : Bytes

/-- `api('/api/mkdir?dst=' + ..)`: no options, so a `GET`. -/
def mkdir_request (dst : String) : Request where
  method := "GET"
  url := "/api/mkdir?dst=" ++ String.ofList (encodeURIComponent dst)
  body := []

/-- `fetch('/api/put?dst=' + .., { method: 'POST', body })`. -/
def put_request (dst : String) (content : Bytes) : Request where
  method := "POST"
  url := "/api/put?dst=" ++ String.ofList (encodeURIComponent dst)
  body := content

/-! ## The server -/

/-- What `route` hands a request to. -/
inductive Endpoint where
  | page
  | roots
  | version
  | update
  | status
  | ls
  | mkdir
  | put
  | move_copy (is_move : Bool)
  | rename
  | delete
  | search_start
  | search
  | not_found
deriving DecidableEq

/-- The `match` of `route`. -/
def route (method path : String) : Endpoint :=
  match method, path with
  | "GET", "/" => .page
  | "GET", "/api/roots" => .roots
  | "GET", "/api/version" => .version
  | "POST", "/api/update" => .update
  | "GET", "/api/status" => .status
  | "GET", "/api/ls" => .ls
  | "POST", "/api/mkdir" => .mkdir
  | "POST", "/api/put" => .put
  | "POST", "/api/move" => .move_copy true
  | "POST", "/api/copy" => .move_copy false
  | "POST", "/api/rename" => .rename
  | "POST", "/api/delete" => .delete
  | "POST", "/api/search" => .search_start
  | "GET", "/api/search" => .search
  | _, _ => .not_found

/-- `uri.path()`. -/
def uri_path (url : String) : String := String.ofList (url.toList.takeWhile (· ≠ '?'))

/-- `uri.query()`. -/
def uri_query (url : String) : String := String.ofList ((url.toList.dropWhile (· ≠ '?')).drop 1)

/-- What a request meets: the name of its temp file, and how its body is cut on the
way. -/
structure Sent where
  tmp : PathBuf
  cut : Bytes → List Bytes
  whole : ∀ bs, (cut bs).flatten = bs

section

variable (k : Kernel) (dec : PercentDecoder)
  (other : Endpoint → FileTree Bytes → FileTree Bytes × Sudo.Reply)

/-- `route`, with the handlers that an upload asks for; of the rest all there is to know
is that they are there. -/
def serve (sent : Sent) (u : FileTree Bytes) (req : Request) : FileTree Bytes × Sudo.Reply :=
  let params := parse_query dec (uri_query req.url)
  let dst : PathBuf := .of ((params "dst").getD "")
  let sp := (params "sudopass").getD ""
  match route req.method (uri_path req.url) with
  | .mkdir =>
    match handle_mkdir k 0 u sp [] [] dst with
    | some a => (a.tree, a.reply)
    | none => (u, denied)
  | .put => handle_put k u sp (calm (sent.cut req.body)) dst sent.tmp
  | .not_found => (u, refused 404 "not found")
  | e => other e u

/-- What `uploadAll` has done: the tree on the server, `files`, and what it has logged. -/
structure Uploaded where
  tree : FileTree Bytes
  files : Nat
  log : List (String × String)

/-- The first loop of `uploadAll`: an error is swallowed. -/
def make_dir (env : String → Sent) (dstDir : String) (u : FileTree Bytes) : Item → FileTree Bytes
  | .dir path =>
    let dst := dstDir ++ "/" ++ path
    if path = "" then u else (serve k dec other (env dst) u (mkdir_request dst)).1
  | .file _ _ => u

/-- The second loop of `uploadAll`. -/
def put_file (env : String → Sent) (dstDir : String) (a : Uploaded) : Item → Uploaded
  | .dir _ => a
  | .file path content =>
    let target := dstDir ++ "/" ++ path
    let (u, r) := serve k dec other (env target) a.tree (put_request target content)
    if ok r then ⟨u, a.files + 1, a.log⟩
    else ⟨u, a.files, a.log ++ [("UPLOAD " ++ target ++ ": HTTP " ++ toString r.status, "err")]⟩

/-- `uploadAll`. -/
def uploadAll (env : String → Sent) (t : FileTree Bytes) (out : List Item) (dstDir : String) :
    Uploaded :=
  let a := out.foldl (put_file k dec other env dstDir)
    ⟨out.foldl (make_dir k dec other env dstDir) t, 0, []⟩
  { a with log := a.log ++ [("UPLOAD " ++ toString a.files ++ " file(s) into " ++ dstDir,
      if a.files = 0 then "err" else "ok")] }

end

/-! ## A dropped tree -/

/-- A name in a directory. -/
def Name (n : String) : Prop := n ≠ "" ∧ n ≠ "." ∧ n ≠ ".." ∧ '/' ∉ n.toList

mutual

/-- The names are names, those in one directory are different, and no batch but the last
is empty. -/
def Dropped.Proper : Dropped → Prop
  | .file name _ => Name name
  | .dir name batches =>
    Name name ∧ (batches.flatten.map Dropped.name).Nodup ∧ proper_batches batches

def proper_batches : List (List Dropped) → Prop
  | [] => True
  | batch :: batches => batch ≠ [] ∧ proper_batch batch ∧ proper_batches batches

def proper_batch : List Dropped → Prop
  | [] => True
  | e :: es => e.Proper ∧ proper_batch es

end

/-- A directory or a file of the tree, by the names above it and its own. -/
structure Node where
  above : List String
  name : String
  content : Option Bytes

/-- The relative path of a node. -/
def Node.path (n : Node) : List String := n.above ++ [n.name]

mutual

/-- The nodes of an entry below `above`. -/
def nodes (above : List String) : Dropped → List Node
  | .file name content => [⟨above, name, some content⟩]
  | .dir name batches => ⟨above, name, none⟩ :: nodes_batches (above ++ [name]) batches

def nodes_batches (above : List String) : List (List Dropped) → List Node
  | [] => []
  | batch :: batches => nodes_batch above batch ++ nodes_batches above batches

def nodes_batch (above : List String) : List Dropped → List Node
  | [] => []
  | e :: es => nodes above e ++ nodes_batch above es

end

/-- What is dropped on a panel, and the directory that it shows. -/
structure Drop where
  dstDir : String
  entries : List Dropped
  named : dstDir ≠ ""
  proper : proper_batch entries
  distinct : (entries.map Dropped.name).Nodup

namespace Drop

/-- The items that the handler of the drop collects. -/
def out (drop : Drop) : List Item := walk_batch "" drop.entries

def nodes (drop : Drop) : List Node := nodes_batch [] drop.entries

/-- The destination directory. -/
def root (drop : Drop) : Path := (PathBuf.of drop.dstDir).path

end Drop

/-! ## Names to text and back -/

/-- The names of directories, each with its separator. -/
def base (above : List String) : String := above.foldl (fun s n => s ++ n ++ "/") ""

theorem base_concat (above : List String) (n : String) :
    base (above ++ [n]) = base above ++ n ++ "/" := by
  rw [base, List.foldl_append, List.foldl_cons, List.foldl_nil, ← base]

/-- The item of a node. -/
def Node.item (n : Node) : Item :=
  match n.content with
  | some content => .file (base n.above ++ n.name) content
  | none => .dir (base n.above ++ n.name)

mutual

/-- **The walk** finds the nodes, in this order. -/
theorem walkEntry_nodes (above : List String) :
    ∀ e : Dropped, e.Proper → walkEntry (base above) e = (nodes above e).map Node.item
  | .file name content, _ => by
      simp only [walkEntry, nodes, List.map_cons, List.map_nil, Node.item]
  | .dir name batches, h => by
      rw [Dropped.Proper] at h
      rw [walkEntry, nodes, List.map_cons, ← base_concat,
        walk_batches_nodes (above ++ [name]) batches h.2.2]
      rfl

theorem walk_batches_nodes (above : List String) :
    ∀ bs : List (List Dropped), proper_batches bs →
      walk_batches (base above) bs = (nodes_batches above bs).map Node.item
  | [], _ => by rw [walk_batches, nodes_batches, List.map_nil]
  | b :: bs, h => by
      rw [proper_batches] at h
      have hne : b.isEmpty = false := by simpa using h.1
      rw [walk_batches, nodes_batches, hne, if_neg Bool.false_ne_true, List.map_append,
        walk_batch_nodes above b h.2.1, walk_batches_nodes above bs h.2.2]

theorem walk_batch_nodes (above : List String) :
    ∀ es : List Dropped, proper_batch es →
      walk_batch (base above) es = (nodes_batch above es).map Node.item
  | [], _ => by rw [walk_batch, nodes_batch, List.map_nil]
  | e :: es, h => by
      rw [proper_batch] at h
      rw [walk_batch, nodes_batch, List.map_append, walkEntry_nodes above e h.1,
        walk_batch_nodes above es h.2]

end

/-- Another name behind a separator. -/
theorem components_child {s : List Char} (hs : s ≠ []) {n : String} (hn : Name n) :
    components (s ++ '/' :: n.toList) = (components s).child n := by
  obtain ⟨hne, hdot, hdots, hsep⟩ := hn
  have hroot : (s ++ '/' :: n.toList).head? = s.head? := by
    cases s with
    | nil => exact absurd rfl hs
    | cons c s => rfl
  have hlist : ∀ m : String, n ≠ m → n.toList ≠ m.toList :=
    fun m h heq => h (String.toList_inj.mp heq)
  have hempty : n.toList ≠ [] := hlist "" hne
  have hone : n.toList ≠ ['.'] := hlist "." hdot
  have htwo : n.toList ≠ ['.', '.'] := hlist ".." hdots
  have hcomp : ∀ first, component first n.toList = some (.normal n) := by
    intro first
    rw [component, if_neg hempty, if_neg hone, if_neg htwo, String.ofList_toList]
  unfold components
  dsimp only
  rw [hroot, List.splitOn_append_cons_self, List.splitOn_eq_singleton hsep, List.zipIdx_append,
    List.filterMap_append]
  simp only [List.zipIdx_cons, List.zipIdx_nil, List.filterMap_cons, List.filterMap_nil, hcomp]
  rfl

theorem of_child {text n : String} (ht : text ≠ "") (hn : Name n) :
    (PathBuf.of (text ++ "/" ++ n)).path = (PathBuf.of text).path.child n := by
  have htext : (text ++ "/" ++ n).toList = text.toList ++ '/' :: n.toList := by simp
  have hne : text.toList ≠ [] := by simpa using ht
  rw [PathBuf.of, htext]
  exact components_child hne hn

/-- The path of a node, from the text that the page sends. -/
theorem target_path {dstDir : String} (hd : dstDir ≠ "") {above : List String} {n : String}
    (h : ∀ m ∈ above ++ [n], Name m) :
    (PathBuf.of (dstDir ++ "/" ++ (base above ++ n))).path =
      (PathBuf.of dstDir).path.down (above ++ [n]) := by
  induction above using List.reverseRecOn generalizing n with
  | nil =>
      have hbase : base [] ++ n = n := String.empty_append
      rw [hbase, of_child hd (h n (by simp))]
      rfl
  | append_singleton above m ih =>
      have htext : dstDir ++ "/" ++ (base (above ++ [m]) ++ n) =
          dstDir ++ "/" ++ (base above ++ m) ++ "/" ++ n := by
        rw [base_concat]
        simp only [String.append_assoc]
      have hne : dstDir ++ "/" ++ (base above ++ m) ≠ "" := by simp
      rw [htext, of_child hne (h n (by simp)), ih fun x hx => h x (List.mem_append_left _ hx),
        Path.down_child]

/-! ## The nodes of a dropped tree -/

mutual

/-- The nodes of an entry are at it and below it. -/
theorem nodes_below (above : List String) : ∀ e : Dropped, ∀ x ∈ nodes above e,
    above ++ [e.name] <+: x.path
  | .file name content, x, hx => by
      rw [nodes, List.mem_singleton] at hx
      rw [hx]
      exact List.prefix_rfl
  | .dir name batches, x, hx => by
      rw [nodes, List.mem_cons] at hx
      rcases hx with rfl | hx
      · exact List.prefix_rfl
      · obtain ⟨e, -, he⟩ := nodes_batches_below (above ++ [name]) batches x hx
        exact (List.prefix_append _ _).trans he

theorem nodes_batches_below (above : List String) : ∀ bs : List (List Dropped),
    ∀ x ∈ nodes_batches above bs, ∃ e ∈ bs.flatten, above ++ [e.name] <+: x.path
  | [], x, hx => by cases hx
  | b :: bs, x, hx => by
      rw [nodes_batches, List.mem_append] at hx
      rcases hx with hx | hx
      · obtain ⟨e, he, hp⟩ := nodes_batch_below above b x hx
        exact ⟨e, by simp [he], hp⟩
      · obtain ⟨e, he, hp⟩ := nodes_batches_below above bs x hx
        exact ⟨e, by simp [he], hp⟩

theorem nodes_batch_below (above : List String) : ∀ es : List Dropped,
    ∀ x ∈ nodes_batch above es, ∃ e ∈ es, above ++ [e.name] <+: x.path
  | [], x, hx => by cases hx
  | e :: es, x, hx => by
      rw [nodes_batch, List.mem_append] at hx
      rcases hx with hx | hx
      · exact ⟨e, List.mem_cons_self, nodes_below above e x hx⟩
      · obtain ⟨e', he, hp⟩ := nodes_batch_below above es x hx
        exact ⟨e', List.mem_cons_of_mem _ he, hp⟩

end

mutual

theorem nodes_names (above : List String) (ha : ∀ m ∈ above, Name m) : ∀ e : Dropped, e.Proper →
    ∀ x ∈ nodes above e, ∀ m ∈ x.path, Name m
  | .file name content, h, x, hx, m, hm => by
      rw [nodes, List.mem_singleton] at hx
      rw [Dropped.Proper] at h
      rw [hx, Node.path, List.mem_append, List.mem_singleton] at hm
      rcases hm with hm | rfl
      · exact ha m hm
      · exact h
  | .dir name batches, h, x, hx, m, hm => by
      rw [Dropped.Proper] at h
      have hall : ∀ y ∈ above ++ [name], Name y := by
        intro y hy
        rcases List.mem_append.mp hy with hy | hy
        · exact ha y hy
        · exact List.mem_singleton.mp hy ▸ h.1
      rw [nodes, List.mem_cons] at hx
      rcases hx with rfl | hx
      · exact hall m hm
      · exact nodes_batches_names (above ++ [name]) hall batches h.2.2 x hx m hm

theorem nodes_batches_names (above : List String) (ha : ∀ m ∈ above, Name m) :
    ∀ bs : List (List Dropped), proper_batches bs →
      ∀ x ∈ nodes_batches above bs, ∀ m ∈ x.path, Name m
  | [], _, x, hx, _, _ => by cases hx
  | b :: bs, h, x, hx, m, hm => by
      rw [proper_batches] at h
      rw [nodes_batches, List.mem_append] at hx
      rcases hx with hx | hx
      · exact nodes_batch_names above ha b h.2.1 x hx m hm
      · exact nodes_batches_names above ha bs h.2.2 x hx m hm

theorem nodes_batch_names (above : List String) (ha : ∀ m ∈ above, Name m) :
    ∀ es : List Dropped, proper_batch es → ∀ x ∈ nodes_batch above es, ∀ m ∈ x.path, Name m
  | [], _, x, hx, _, _ => by cases hx
  | e :: es, h, x, hx, m, hm => by
      rw [proper_batch] at h
      rw [nodes_batch, List.mem_append] at hx
      rcases hx with hx | hx
      · exact nodes_names above ha e h.1 x hx m hm
      · exact nodes_batch_names above ha es h.2 x hx m hm

end

/-- Neither of two nodes is a file at or above the other. -/
def Apart (a b : Node) : Prop :=
  (a.content.isSome → ¬ a.path <+: b.path) ∧ (b.content.isSome → ¬ b.path <+: a.path)

/-- What is below different names of one directory is apart. -/
theorem apart_of_names {above : List String} {n m : String} (hne : n ≠ m) {a b : Node}
    (ha : above ++ [n] <+: a.path) (hb : above ++ [m] <+: b.path) : Apart a b := by
  have hno : ∀ {p : List String}, above ++ [n] <+: p → above ++ [m] <+: p → False := by
    intro p hn hm
    have hsame := List.prefix_of_prefix_length_le hn hm (by simp)
    have heq := List.append_cancel_left (hsame.eq_of_length (by simp))
    exact hne (List.cons.inj heq).1
  exact ⟨fun _ hab => hno (ha.trans hab) hb, fun _ hba => hno ha (hb.trans hba)⟩

mutual

/-- **Files** are leaves. -/
theorem nodes_apart (above : List String) : ∀ e : Dropped, e.Proper →
    (nodes above e).Pairwise Apart
  | .file name content, _ => by
      rw [nodes]
      exact List.pairwise_singleton _ _
  | .dir name batches, h => by
      rw [Dropped.Proper] at h
      rw [nodes, List.pairwise_cons]
      refine ⟨fun x hx => ⟨fun hdir => (nomatch hdir), fun _ hp => ?_⟩,
        nodes_batches_apart (above ++ [name]) batches h.2.2 h.2.1⟩
      -- what is in a directory has a longer path
      obtain ⟨e, -, he⟩ := nodes_batches_below (above ++ [name]) batches x hx
      have hlen := (he.trans hp).length_le
      simp only [Node.path, List.length_append, List.length_singleton] at hlen
      omega

theorem nodes_batches_apart (above : List String) : ∀ bs : List (List Dropped),
    proper_batches bs → (bs.flatten.map Dropped.name).Nodup →
      (nodes_batches above bs).Pairwise Apart
  | [], _, _ => by
      rw [nodes_batches]
      exact List.Pairwise.nil
  | b :: bs, h, hd => by
      rw [proper_batches] at h
      rw [List.flatten_cons, List.map_append, List.nodup_append] at hd
      rw [nodes_batches, List.pairwise_append]
      refine ⟨nodes_batch_apart above b h.2.1 hd.1, nodes_batches_apart above bs h.2.2 hd.2.1, ?_⟩
      intro x hx y hy
      obtain ⟨e, he, hex⟩ := nodes_batch_below above b x hx
      obtain ⟨e', he', hey⟩ := nodes_batches_below above bs y hy
      exact apart_of_names (hd.2.2 _ (List.mem_map_of_mem he) _ (List.mem_map_of_mem he')) hex hey

theorem nodes_batch_apart (above : List String) : ∀ es : List Dropped, proper_batch es →
    (es.map Dropped.name).Nodup → (nodes_batch above es).Pairwise Apart
  | [], _, _ => by
      rw [nodes_batch]
      exact List.Pairwise.nil
  | e :: es, h, hd => by
      rw [proper_batch] at h
      rw [List.map_cons, List.nodup_cons] at hd
      rw [nodes_batch, List.pairwise_append]
      refine ⟨nodes_apart above e h.1, nodes_batch_apart above es h.2 hd.2, ?_⟩
      intro x hx y hy
      obtain ⟨e', he', hey⟩ := nodes_batch_below above es y hy
      refine apart_of_names (fun heq => hd.1 ?_) (nodes_below above e x hx) hey
      rw [heq]
      exact List.mem_map_of_mem he'

end

/-! ## What the server makes of the requests -/

section Requests

variable {k : Kernel} {dec : PercentDecoder}
  {other : Endpoint → FileTree Bytes → FileTree Bytes × Sudo.Reply}

theorem uri_path_of {path query : String} (h : '?' ∉ path.toList) :
    uri_path (path ++ "?" ++ query) = path := by
  have htext : (path ++ "?" ++ query).toList = path.toList ++ '?' :: query.toList := by simp
  rw [uri_path, htext, Cut.takeWhile_ne h (.inr rfl), String.ofList_toList]

theorem uri_query_of {path query : String} (h : '?' ∉ path.toList) :
    uri_query (path ++ "?" ++ query) = query := by
  have htext : (path ++ "?" ++ query).toList = path.toList ++ '?' :: query.toList := by simp
  rw [uri_query, htext, Cut.dropWhile_ne h (.inr rfl), List.drop_one, List.tail_cons,
    String.ofList_toList]

/-- The one parameter that the page sends. -/
theorem parse_dst (dst : String) :
    parse_query dec ("dst=" ++ String.ofList (encodeURIComponent dst)) =
      insert (fun _ => none) "dst" dst := by
  have hkey : encodeURIComponent "dst" = "dst".toList := by
    refine encode_plain fun c hc => ?_
    have hletters : c ∈ ['d', 's', 't'] := hc
    simp only [List.mem_cons, List.not_mem_nil, or_false] at hletters
    rcases hletters with rfl | rfl | rfl <;> decide
  have htext : ("dst=" ++ String.ofList (encodeURIComponent dst)).toList =
      encodeURIComponent "dst" ++ '=' :: encodeURIComponent dst := by
    rw [hkey]
    simp
  have hamp : '&' ∉ encodeURIComponent "dst" ++ '=' :: encodeURIComponent dst := by
    rw [List.mem_append, List.mem_cons]
    rintro (h | h | h)
    · exact separator_not_mem "dst" (by decide) (by decide) h
    · cases h
    · exact separator_not_mem dst (by decide) (by decide) h
  rw [parse_query, htext, List.splitOn_eq_singleton hamp, List.foldl_cons, List.foldl_nil,
    add_pair_encode]

/-- **A directory is asked for with a `GET`**, for which there is no route. -/
theorem serve_mkdir (sent : Sent) (u : FileTree Bytes) (dst : String) :
    serve k dec other sent u (mkdir_request dst) = (u, refused 404 "not found") := by
  have hurl : (mkdir_request dst).url =
      "/api/mkdir" ++ "?" ++ ("dst=" ++ String.ofList (encodeURIComponent dst)) := by
    rw [mkdir_request, ← String.append_assoc]
    rfl
  have hroute : route (mkdir_request dst).method (uri_path (mkdir_request dst).url)
      = .not_found := by
    rw [hurl, uri_path_of (by decide)]
    exact (by decide : route "GET" "/api/mkdir" = .not_found)
  unfold serve
  dsimp only
  rw [hroute]

/-- The request that a file is sent with. -/
def put_of (env : String → Sent) (dst : String) (content : Bytes) : Put where
  dst := .of dst
  tmp := (env dst).tmp
  chunks := (env dst).cut content

theorem serve_put (env : String → Sent) (u : FileTree Bytes) (dst : String) (content : Bytes) :
    serve k dec other (env dst) u (put_request dst content) =
      (put_of env dst content).serve k u := by
  have hurl : (put_request dst content).url =
      "/api/put" ++ "?" ++ ("dst=" ++ String.ofList (encodeURIComponent dst)) := by
    rw [put_request, ← String.append_assoc]
    rfl
  have hroute : route (put_request dst content).method (uri_path (put_request dst content).url)
      = .put := by
    rw [hurl, uri_path_of (by decide)]
    exact (by decide : route "POST" "/api/put" = .put)
  have hdst : insert (fun _ => none) "dst" dst "dst" = some dst := if_pos rfl
  have hsp : insert (fun _ => none) "dst" dst "sudopass" = none := if_neg (by decide)
  unfold serve
  dsimp only
  rw [hroute, hurl, uri_query_of (by decide), parse_dst, hdst, hsp]
  rfl

/-- The requests for the files of a list of items. -/
def puts (env : String → Sent) (dstDir : String) (out : List Item) : List Put :=
  out.filterMap fun o =>
    match o with
    | .dir _ => none
    | .file path content => some (put_of env (dstDir ++ "/" ++ path) content)

/-- **The tree after an upload** is that after the requests for the files. -/
theorem uploadAll_tree (env : String → Sent) (t : FileTree Bytes) (out : List Item)
    (dstDir : String) :
    (uploadAll k dec other env t out dstDir).tree = put_all k t (puts env dstDir out) := by
  have hdirs : out.foldl (make_dir k dec other env dstDir) t = t := by
    induction out with
    | nil => rfl
    | cons o out ih =>
        have hone : make_dir k dec other env dstDir t o = t := by
          cases o with
          | file path content => rfl
          | dir path => simp only [make_dir, serve_mkdir, ite_self]
        rw [List.foldl_cons, hone, ih]
  have hfiles : ∀ a : Uploaded, (out.foldl (put_file k dec other env dstDir) a).tree =
      put_all k a.tree (puts env dstDir out) := by
    clear hdirs
    induction out with
    | nil => exact fun _ => rfl
    | cons o out ih =>
        intro a
        rw [List.foldl_cons, ih]
        cases o with
        | dir path => rfl
        | file path content =>
            have hone : (put_file k dec other env dstDir a (.file path content)).tree =
                ((put_of env (dstDir ++ "/" ++ path) content).serve k a.tree).1 := by
              simp only [put_file, serve_put]
              split <;> rfl
            rw [hone]
            rfl
  unfold uploadAll
  dsimp only
  rw [hfiles, hdirs]

end Requests

/-! ## What has arrived -/

namespace Drop

/-- The relative paths of the dropped tree. -/
def rels (drop : Drop) : List (List String) := drop.nodes.map Node.path

/-- Their paths below the destination. -/
def paths (drop : Drop) : List Path := drop.rels.map drop.root.down

/-- The requests for the dropped files. -/
def puts (env : String → Sent) (drop : Drop) : List Put := Drops.puts env drop.dstDir drop.out

/-- The destination has a directory for every dropped directory, and a file with the
same content for every dropped file. -/
def Delivered (k : Kernel) (drop : Drop) (t' : FileTree Bytes) : Prop :=
  ∀ x ∈ drop.nodes, match x.content with
    | none => k.is_dir t' (drop.root.down x.path) = true
    | some content => k.read t' (drop.root.down x.path) = some content

/-- Every dropped directory has a dropped file below it, if it is not there already. -/
def Covered (k : Kernel) (drop : Drop) (t : FileTree Bytes) : Prop :=
  ∀ x ∈ drop.nodes, x.content = none → k.is_dir t (drop.root.down x.path) = true ∨
    ∃ y ∈ drop.nodes, y.content.isSome = true ∧ x.path <+: y.path

end Drop

section Upload

variable {k : Kernel} {dec : PercentDecoder}
  {other : Endpoint → FileTree Bytes → FileTree Bytes × Sudo.Reply} {t : FileTree Bytes}
  {env : String → Sent} {drop : Drop}

instance : Std.Symm Apart where
  symm _ _ h := ⟨h.2, h.1⟩

theorem Drop.apart (drop : Drop) : drop.nodes.Pairwise Apart :=
  nodes_batch_apart [] drop.entries drop.proper drop.distinct

theorem Drop.apart_of_ne {x y : Node} (hx : x ∈ drop.nodes) (hy : y ∈ drop.nodes) (hne : x ≠ y) :
    Apart x y :=
  drop.apart.forall hx hy hne

/-- The path of a dropped file belongs to no other node, and nothing is below it. -/
theorem Drop.eq_of_file {x y : Node} (hx : x ∈ drop.nodes) (hy : y ∈ drop.nodes)
    (hfile : x.content.isSome = true) (hp : x.path <+: y.path) : x = y := by
  by_contra hne
  exact (drop.apart_of_ne hx hy hne).1 hfile hp

/-- The path of a node below the destination. -/
theorem Drop.target {x : Node} (hx : x ∈ drop.nodes) :
    (PathBuf.of (drop.dstDir ++ "/" ++ (base x.above ++ x.name))).path =
      drop.root.down x.path := by
  refine target_path drop.named fun m hm => ?_
  exact nodes_batch_names [] (fun _ h => (nomatch h)) drop.entries drop.proper x hx m hm

/-- The request for a dropped file. -/
def Node.put (env : String → Sent) (dstDir : String) (x : Node) : Option Put :=
  x.content.map fun content => put_of env (dstDir ++ "/" ++ (base x.above ++ x.name)) content

theorem Drop.puts_eq (env : String → Sent) (drop : Drop) :
    drop.puts env = drop.nodes.filterMap (Node.put env drop.dstDir) := by
  have hwalk : drop.out = drop.nodes.map Node.item :=
    walk_batch_nodes [] drop.entries drop.proper
  rw [Drop.puts, Drops.puts, hwalk, List.filterMap_map]
  refine List.filterMap_congr fun x _ => ?_
  unfold Function.comp Node.put Node.item
  cases x.content <;> rfl

theorem Drop.mem_puts {p : Put} (hp : p ∈ drop.puts env) : ∃ x ∈ drop.nodes,
    x.content = some p.chunks.flatten ∧ p.dst.path = drop.root.down x.path := by
  rw [Drop.puts_eq] at hp
  obtain ⟨x, hx, hput⟩ := List.mem_filterMap.mp hp
  obtain ⟨content, hc, rfl⟩ := Option.map_eq_some_iff.mp hput
  refine ⟨x, hx, ?_, drop.target hx⟩
  rw [hc]
  exact congrArg some ((env _).whole content).symm

theorem Drop.put_of_file (env : String → Sent) {x : Node} (hx : x ∈ drop.nodes) {content : Bytes}
    (hc : x.content = some content) : ∃ p ∈ drop.puts env,
      p.dst.path = drop.root.down x.path ∧ p.chunks.flatten = content := by
  refine ⟨put_of env (drop.dstDir ++ "/" ++ (base x.above ++ x.name)) content, ?_, drop.target hx,
    (env _).whole content⟩
  rw [Drop.puts_eq]
  refine List.mem_filterMap.mpr ⟨x, hx, ?_⟩
  rw [Node.put, hc, Option.map_some]

theorem Drop.mem_paths {x : Node} (hx : x ∈ drop.nodes) : drop.root.down x.path ∈ drop.paths :=
  List.mem_map_of_mem (List.mem_map_of_mem hx)

theorem Drop.puts_apart (env : String → Sent) (drop : Drop) :
    (drop.puts env).Pairwise fun p p' => p.dst.path ≠ p'.dst.path := by
  rw [Drop.puts_eq]
  refine (List.Pairwise.and_mem.mp drop.apart).filterMap _ ?_
  rintro x y ⟨hx, hy, happart⟩ p hp p' hp' heq
  obtain ⟨content, hc, rfl⟩ := Option.map_eq_some_iff.mp hp
  obtain ⟨content', -, rfl⟩ := Option.map_eq_some_iff.mp hp'
  have hpath := (drop.target hx).symm.trans (heq.trans (drop.target hy))
  refine happart.1 (by rw [hc, Option.isSome_some]) ?_
  rw [Path.down_injective _ hpath]

/-- A directory is at the path of no request. -/
theorem Drop.dir_ne {x : Node} (hx : x ∈ drop.nodes) (hdir : x.content = none) {p : Put}
    (hp : p ∈ drop.puts env) : drop.root.down x.path ≠ p.dst.path := by
  intro heq
  obtain ⟨y, hy, hc, hdst⟩ := drop.mem_puts hp
  have hpath := Path.down_injective _ (heq.trans hdst)
  have hsame := drop.eq_of_file hy hx (by rw [hc, Option.isSome_some]) (by rw [hpath])
  rw [hsame, hdir] at hc
  cases hc

/-- With every dropped directory on the way to a file, or there already, everything is
delivered. -/
theorem Drop.delivered (hserved : Throughout k (Served k) t (drop.puts env))
    (hclear : Throughout k (Clear k drop.paths) t (drop.puts env)) (hcovered : drop.Covered k t) :
    drop.Delivered k (put_all k t (drop.puts env)) := by
  have hpaths : ∀ p ∈ drop.puts env, p.dst.path ∈ drop.paths := by
    intro p hp
    obtain ⟨y, hy, -, hdst⟩ := drop.mem_puts hp
    rw [hdst]
    exact Drop.mem_paths hy
  have hfiles : ∀ p ∈ drop.puts env, _ := fun p hp =>
    put_all_files hserved hclear hpaths (drop.puts_apart env) hp
  intro x hx
  cases hc : x.content with
  | some content =>
      obtain ⟨p, hp, hdst, rfl⟩ := drop.put_of_file env hx hc
      show k.read _ _ = _
      rw [← hdst]
      exact (hfiles p hp).1
  | none =>
      have hne : ∀ p ∈ drop.puts env, drop.root.down x.path ≠ p.dst.path :=
        fun p hp => drop.dir_ne hx hc hp
      show k.is_dir _ _ = true
      rcases hcovered x hx hc with hd | ⟨y, hy, hfile, r, hr⟩
      · exact (put_all_keeps hserved hclear (Drop.mem_paths hx) hne).1 hd
      · -- a directory above a file is made with the file
        obtain ⟨content, hcy⟩ := Option.isSome_iff_exists.mp hfile
        obtain ⟨p, hp, hdst, -⟩ := drop.put_of_file env hy hcy
        have hr0 : r ≠ [] := by
          rintro rfl
          rw [List.append_nil] at hr
          rw [drop.eq_of_file hy hx hfile (by rw [hr]), hc] at hcy
          cases hcy
        obtain ⟨s, n, rfl⟩ := (List.eq_nil_or_concat' r).resolve_left hr0
        refine (hfiles p hp).2 _ (Drop.mem_paths hx) hne s n ?_
        rw [hdst, ← hr, Path.down_down]

theorem Drop.lands_below (env : String → Sent) (drop : Drop) :
    LandsBelow drop.root drop.rels (drop.puts env) := by
  intro p hp
  obtain ⟨y, hy, hc, hdst⟩ := drop.mem_puts hp
  refine ⟨y.path, List.mem_map_of_mem hy, by simp [Node.path], hdst, fun r hr hyr => ?_⟩
  obtain ⟨z, hz, rfl⟩ := List.mem_map.mp hr
  rw [drop.eq_of_file hy hz (by rw [hc, Option.isSome_some]) hyr]

/-- **An upload rebuilds the dropped tree** if every dropped directory has a dropped file
below it or is there already, and no file lands on the way of another path. Where no
link is in the place of anything dropped, none does, and it is rebuilt exactly then. -/
theorem upload_rebuilds (k : Kernel) (dec : PercentDecoder)
    (other : Endpoint → FileTree Bytes → FileTree Bytes × Sudo.Reply) (t : FileTree Bytes)
    (drop : Drop) (env : String → Sent) (hserved : Throughout k (Served k) t (drop.puts env)) :
    (drop.Covered k t → Throughout k (Clear k drop.paths) t (drop.puts env) →
      drop.Delivered k (uploadAll k dec other env t drop.out drop.dstDir).tree) ∧
    ∀ d, Ground k drop.root d drop.rels t →
      (drop.Delivered k (uploadAll k dec other env t drop.out drop.dstDir).tree ↔
        drop.Covered k t) := by
  have htree : (uploadAll k dec other env t drop.out drop.dstDir).tree =
      put_all k t (drop.puts env) := uploadAll_tree env t drop.out drop.dstDir
  rw [htree]
  refine ⟨fun hcovered hclear => drop.delivered hserved hclear hcovered, fun d hground => ?_⟩
  obtain ⟨hclear, hend, hdirs⟩ := hground.throughout (drop.lands_below env) hserved
  refine ⟨fun hdel x hx hc => ?_, fun hcovered => drop.delivered hserved hclear hcovered⟩
  have hrel : x.path ∈ drop.rels := List.mem_map_of_mem hx
  have hdir := hdel x hx
  rw [hc] at hdir
  -- a directory in the end is one from the start, or above one of the files
  rcases hdirs x.path ((hend.is_dir_iff hrel).mp hdir) with hd | ⟨p, hp, f, hdst, hxf⟩
  · exact .inl ((hground.is_dir_iff hrel).mpr hd)
  · obtain ⟨y, hy, hcy, hdst'⟩ := drop.mem_puts hp
    have hf := Path.down_injective _ (hdst.symm.trans hdst')
    exact .inr ⟨y, hy, by rw [hcy, Option.isSome_some], hf ▸ hxf⟩

end Upload

/-- One file in a directory, dropped on `/home`. -/
def small : Drop where
  dstDir := "/home"
  entries := [.dir "b" [[.file "a" [1]]]]
  named := by decide
  proper := by simp [proper_batch, proper_batches, Dropped.Proper, Name]
  distinct := by decide

/-- A temp file in `/tmp`, and a body in one piece. -/
def sent : Sent where
  tmp := .of "/tmp/m"
  cut bs := [bs]
  whole bs := by simp

/-- It arrives in a directory of its own. -/
theorem upload_rebuilds_small : small.Delivered box (uploadAll box crate (fun _ u => (u, denied))
    (fun _ => sent) home_and_tmp small.out small.dstDir).tree := by
  have hget : ∀ x, home_and_tmp.get x = if x = ["home", "f"] then some (.file [9, 9])
      else if x = ["home"] then some .dir else if x = ["tmp"] then some .dir
      else if x = [] then some .dir else none := fun _ => rfl
  have hlink : ∀ x, home_and_tmp.linkAt x = none := by
    intro x
    unfold linkAt
    rw [hget]
    split_ifs <;> rfl
  have hserved : Throughout box (Served box) home_and_tmp (small.puts fun _ => sent) :=
    ⟨⟨rfl, by decide, by decide⟩, trivial⟩
  refine ((upload_rebuilds box crate (fun _ u => (u, denied)) home_and_tmp small (fun _ => sent)
    hserved).2 ["home"] ⟨by decide, by decide, fun _ _ _ _ _ => hlink _⟩).mpr ?_
  intro x hx hc
  have hnodes : small.nodes = [⟨[], "b", none⟩, ⟨["b"], "a", some [1]⟩] := rfl
  rw [hnodes, List.mem_cons, List.mem_singleton] at hx
  rcases hx with rfl | rfl
  · exact .inr ⟨⟨["b"], "a", some [1]⟩, by simp [hnodes], rfl, by decide⟩
  · cases hc

/-- **An empty directory** is lost: nothing makes it. -/
theorem empty_directory_lost : ¬ ∀ (k : Kernel) (dec : PercentDecoder)
    (other : Endpoint → FileTree Bytes → FileTree Bytes × Sudo.Reply) (t : FileTree Bytes)
    (drop : Drop) (env : String → Sent), Throughout k (Served k) t (drop.puts env) →
      drop.Delivered k (uploadAll k dec other env t drop.out drop.dstDir).tree := by
  intro h
  let drop : Drop := ⟨"/home", [.dir "e" []], by decide,
    by simp [proper_batch, proper_batches, Dropped.Proper, Name], by decide⟩
  have hdel := h box crate (fun _ t => (t, denied)) home_and_tmp drop (fun _ => sent) trivial
  have hdir := hdel ⟨[], "e", none⟩ List.mem_cons_self
  rw [uploadAll_tree] at hdir
  exact absurd hdir (by decide)

end WebDavs.Drops
