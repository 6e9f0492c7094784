import AgentStateGraph.Sync.Bundle

/-!
# API keys

A server keeps the keys it knows in memory, by the hash of the raw key, and in
a file that is replaced as a whole.  Administration names a key by its id and
changes memory and file under one lock; a key is authenticated by its hash.
What a call does between two locks is a step of its own, so that calls run side
by side, and a restart forgets every call and loads the file.
-/

namespace AgentStateGraph

namespace Auth

open Bundles

/-! ## Records -/

structure CreateKeyOptions where
  commitAgentId : Option String
  namespaceId : Option String
  canMigrate : Bool
  isAdmin : Bool
  expiresAt : Option ℤ

/-- What a key is for; times are nanoseconds since the epoch. -/
structure KeyFields where
  id : String
  tenantId : String
  name : String
  plan : String
  enabled : Bool
  createdAt : String
  commitAgentId : Option String
  namespaceId : Option String
  canMigrate : Bool
  isAdmin : Bool
  expiresAt : Option ℤ
  lastUsedAt : Option ℤ
deriving DecidableEq

/-- A key with its raw value. -/
structure ApiKey extends KeyFields where
  key : String
deriving DecidableEq

/-- A key as the server keeps it. -/
structure StoredKey extends KeyFields where
  keyHash : String
  keyPreview : String
deriving DecidableEq

def StoredKey.issue (k : StoredKey) (raw : String) : ApiKey :=
  { k.toKeyFields with key := raw }

def StoredKey.isLive (k : StoredKey) (now : ℤ) : Bool :=
  k.enabled && k.expiresAt.all fun exp => now ≤ exp

structure KeysFile where
  version : ℕ
  keys : List StoredKey

structure KeyStoreError where
  message : String
deriving DecidableEq

def KEYS_FILE_VERSION : ℕ := 2

/-! ## What lies outside -/

/-- Unicode white space. -/
def isWhitespace (c : Char) : Bool :=
  let n := c.toNat
  (9 ≤ n && n ≤ 13) || n = 0x20 || n = 0x85 || n = 0xa0 || n = 0x1680 ||
    (0x2000 ≤ n && n ≤ 0x200a) || n = 0x2028 || n = 0x2029 || n = 0x202f ||
    n = 0x205f || n = 0x3000

/-- `data.trim_start().starts_with('[')`. -/
def startsArray (data : String) : Bool :=
  (data.toList.dropWhile isWhitespace).head? = some '['

/-- The hash of a raw key, the texts of times and of the keys file, where the
file is, and the tenant that is served.  A version 1 file is given by the keys
that are made of it. -/
structure Setup where
  hashKey : String → String
  toRfc3339 : ℤ → String
  toVecPretty : KeysFile → String
  fromStr : String → Except String KeysFile
  fromStr_toVecPretty : ∀ file, fromStr (toVecPretty file) = .ok file
  startsArray_toVecPretty : ∀ file, startsArray (toVecPretty file) = false
  legacy : String → Except String (List StoredKey)
  path : String
  tenantId : String

/-- The characters of the first `n` bytes, if one ends there. -/
def takeBytes : ℕ → List Char → Option (List Char)
  | 0, _ => some []
  | _ + 1, [] => none
  | n + 1, c :: cs =>
      if c.utf8Size ≤ n + 1 then
        (takeBytes (n + 1 - c.utf8Size) cs).map (c :: ·)
      else none

def preview (raw : String) : String :=
  let ends :=
    if raw.utf8ByteSize > 12 then
      (takeBytes 8 raw.toList).bind fun first =>
        (takeBytes 4 raw.toList.reverse).map fun last => (first, last.reverse)
    else none
  match ends with
  | some (first, last) =>
      String.ofList first ++ "..." ++ String.ofList last
  | none => "***"

/-- `key_` and the digits drawn. -/
def generateKeyId (hex : String) : String := "key_" ++ hex

variable (setup : Setup)

def StoredKey.fromApiKey (key : ApiKey) (id : String) : StoredKey :=
  { key.toKeyFields with
    id := id
    keyHash := setup.hashKey key.key
    keyPreview := preview key.key }

/-! ## The file -/

abbrev Keys := BTreeMap String StoredKey

def collectKeys (l : List StoredKey) : Keys :=
  Std.ExtTreeMap.ofList (l.map fun k => (k.keyHash, k)) compare

def unreadable (what e : String) : KeyStoreError where
  message := "keys file " ++ setup.path ++ " isn't a valid " ++ what ++ ": " ++ e ++
    ". Fix or move it; the server won't start without its keys, or replace it."

/-- The keys by hash, and whether the file held raw keys. -/
def loadKeys : Option String → Except KeyStoreError (Keys × Bool)
  | none => .ok (∅, false)
  | some data =>
      if startsArray data then
        match setup.legacy data with
        | .error e => .error (unreadable setup "version 1 keys file" e)
        | .ok keys => .ok (collectKeys keys, true)
      else
        match setup.fromStr data with
        | .error e => .error (unreadable setup "keys file" e)
        | .ok file =>
            if file.version > KEYS_FILE_VERSION then
              .error
                { message := "keys file " ++ setup.path ++ " is version " ++
                    toString file.version ++
                    ", written by a newer server; this one reads up to 2" }
            else .ok (collectKeys file.keys, false)

/-- The text that replaces the file. -/
def keysText (keys : Keys) : String :=
  setup.toVecPretty
    { version := KEYS_FILE_VERSION
      keys := (keys.toList.map Prod.snd).mergeSort fun a b =>
        decide (a.id ≤ b.id) }

/-! ## The server -/

/-- Where a call is that has taken one of its locks. -/
inductive Phase where
  | insert (key name : String)
  | touch (key tenant : String)
  | choose (key tenant : String)

/-- Memory, the file, and what each caller is doing.  The hashes of the keys
that were revoked or rotated are listed for the record. -/
structure Server (W : Type) where
  keys : Keys
  namespaceRepos : List String
  file : Option String
  inFlight : W → Option Phase
  revoked : List String

inductive AuthError where
  | missingKey
  | invalidKey
  | wrongTenant (keyTenant serverTenant : String)
  | badKeyNamespace
deriving DecidableEq

/-- The repository of a request: the default one, or the one of a
namespace. -/
inductive RepoChoice where
  | default
  | ofNamespace (ns : String)
deriving DecidableEq

/-- Whether a save lands, or how it fails. -/
abbrev Save := Except String Unit

namespace Server

variable {W : Type} (s : Server W)

def empty : Server W := ⟨∅, [], none, fun _ => none, []⟩

/-- Nothing changes unless the save succeeds. -/
def update {α : Type} (save : Save) (change : Keys → α × Keys) :
    Except KeyStoreError α × Server W :=
  let (out, next) := change s.keys
  match save with
  | .error e =>
      (.error { message := "couldn't save keys file " ++ setup.path ++ " " ++ e },
        s)
  | .ok () =>
      (.ok out, { s with keys := next, file := some (keysText setup next) })

def live (apiKey : String) (now : ℤ) : Option StoredKey :=
  s.keys[setup.hashKey apiKey]?.filter fun k => k.isLive now

def registerKey (save : Save) (hex : String) (apiKey : ApiKey) :
    Except KeyStoreError String × Server W :=
  let id := if apiKey.id = "" then generateKeyId hex else apiKey.id
  let stored := StoredKey.fromApiKey setup apiKey id
  s.update setup save fun keys => (id, keys.insert stored.keyHash stored)

def createKeyWith (save : Save) (hex raw : String) (now : ℤ)
    (tenantId name plan : String) (opts : CreateKeyOptions) :
    Except KeyStoreError ApiKey × Server W :=
  let apiKey : ApiKey :=
    { id := generateKeyId hex
      key := raw
      tenantId := tenantId
      name := name
      plan := plan
      enabled := true
      createdAt := setup.toRfc3339 now
      namespaceId := opts.namespaceId
      commitAgentId := opts.commitAgentId
      canMigrate := opts.canMigrate
      isAdmin := opts.isAdmin
      expiresAt := opts.expiresAt
      lastUsedAt := none }
  let (out, s) := s.registerKey setup save hex apiKey
  (out.map fun id => { apiKey with id := id }, s)

/-- `keys.values_mut().find(|k| k.id == key_id)`, with the hash it is under. -/
def findId (keys : Keys) (id : String) : Option (String × StoredKey) :=
  keys.toList.find? fun e => e.2.id = id

def rotateKey (save : Save) (hex raw : String) (now : ℤ) (keyId : String) :
    Except KeyStoreError (Option ApiKey) × Server W :=
  let (rotated, s) := s.update setup save fun keys =>
    match findId keys keyId with
    | none => (none, keys)
    | some (hash, old) =>
        let old := { old with enabled := false }
        let new :=
          { old with
            id := generateKeyId hex
            keyHash := setup.hashKey raw
            keyPreview := preview raw
            enabled := true
            createdAt := setup.toRfc3339 now
            lastUsedAt := none }
        (some new, (keys.insert hash old).insert new.keyHash new)
  (rotated.map fun new => new.map fun new => new.issue raw, s)

def revokeKey (save : Save) (keyId : String) :
    Except KeyStoreError Bool × Server W :=
  s.update setup save fun keys =>
    match findId keys keyId with
    | none => (false, keys)
    | some (hash, k) => (true, keys.insert hash { k with enabled := false })

/-- The key of `register_admin_key`. -/
def adminKey (key name : String) (now : ℤ) : ApiKey where
  id := ""
  key := key
  tenantId := "admin"
  name := name
  plan := "admin"
  enabled := true
  createdAt := setup.toRfc3339 now
  namespaceId := none
  commitAgentId := none
  canMigrate := true
  isAdmin := true
  expiresAt := none
  lastUsedAt := none

/-- `resolve_tenant` notes that the key was used, in memory only. -/
def touch (apiKey : String) (now : ℤ) : Server W :=
  match s.keys[setup.hashKey apiKey]? with
  | none => s
  | some k =>
      { s with
        keys := s.keys.insert (setup.hashKey apiKey)
          { k with lastUsedAt := some now } }

def namespaceRepo (ns : String) : Except AuthError RepoChoice × Server W :=
  if ns ∈ s.namespaceRepos then (.ok (.ofNamespace ns), s)
  else
    match Namespace.new ns with
    | .error _ => (.error .badKeyNamespace, s)
    | .ok _ =>
        (.ok (.ofNamespace ns), { s with namespaceRepos := ns :: s.namespaceRepos })

/-- The end of `get_repo`, with the tenant that was resolved. -/
def chooseRepo (apiKey tenant : String) (now : ℤ) :
    Except AuthError RepoChoice × Server W :=
  match s.live setup apiKey now with
  | none => (.error .invalidKey, s)
  | some stored =>
      if stored.isAdmin = false ∧ tenant ≠ setup.tenantId then
        (.error (.wrongTenant tenant setup.tenantId), s)
      else
        match stored.namespaceId with
        | none => (.ok .default, s)
        | some ns => s.namespaceRepo ns

/-- A new process; calls in flight are gone.  A version 1 file is rewritten if
it can be. -/
def restart (save : Save) : Except KeyStoreError Unit × Server W :=
  match loadKeys setup s.file with
  | .error e => (.error e, s)
  | .ok (keys, migrated) =>
      (.ok (),
        { keys := keys
          namespaceRepos := []
          file :=
            match migrated, save with
            | true, .ok () => some (keysText setup keys)
            | _, _ => s.file
          inFlight := fun _ => none
          revoked := s.revoked })

end Server

/-! ## Steps of calls -/

inductive Action (W : Type) where
  | createKeyWith (save : Save) (hex raw : String) (now : ℤ)
      (tenantId name plan : String) (opts : CreateKeyOptions)
  | rotateKey (save : Save) (hex raw : String) (now : ℤ) (keyId : String)
  | revokeKey (save : Save) (keyId : String)
  | registerAdminLookup (w : W) (key name : String)
  | registerAdminInsert (w : W) (save : Save) (hex : String) (now : ℤ)
  | getRepoResolve (w : W) (apiKey : Option String) (now : ℤ)
  | getRepoTouch (w : W) (now : ℤ)
  | getRepoChoose (w : W) (now : ℤ)
  | restart (save : Save)

/-- What a call returns, when this step is its last. -/
inductive Answer where
  | created (r : Except KeyStoreError ApiKey)
  | rotated (r : Except KeyStoreError (Option ApiKey))
  | revoked (r : Except KeyStoreError Bool)
  | registered (r : Except KeyStoreError Bool)
  | repo (r : Except AuthError RepoChoice)
  | restarted (r : Except KeyStoreError Unit)

namespace Server

variable {W : Type} [DecidableEq W] (s : Server W)

def goto (w : W) (phase : Option Phase) : Server W :=
  { s with inFlight := Function.update s.inFlight w phase }

/-- The hash of the key with an id goes to the record. -/
def noteRevoked (keyId : String) (s' : Server W) : Server W :=
  { s' with
    revoked := s'.revoked ++ ((findId s.keys keyId).map Prod.fst).toList }

/-- A step that does not fit where its caller is does nothing. -/
def call : Action W → Option Answer × Server W
  | .createKeyWith save hex raw now tenantId name plan opts =>
      let (r, s') := s.createKeyWith setup save hex raw now tenantId name plan opts
      (some (.created r), s')
  | .rotateKey save hex raw now keyId =>
      let (r, s') := s.rotateKey setup save hex raw now keyId
      match r with
      | .ok (some _) => (some (.rotated r), s.noteRevoked keyId s')
      | _ => (some (.rotated r), s')
  | .revokeKey save keyId =>
      let (r, s') := s.revokeKey setup save keyId
      match r with
      | .ok true => (some (.revoked r), s.noteRevoked keyId s')
      | _ => (some (.revoked r), s')
  | .registerAdminLookup w key name =>
      match s.inFlight w with
      | some _ => (none, s)
      | none =>
          match s.keys[setup.hashKey key]? with
          | some _ => (some (.registered (.ok false)), s)
          | none => (none, s.goto w (some (.insert key name)))
  | .registerAdminInsert w save hex now =>
      match s.inFlight w with
      | some (.insert key name) =>
          let (r, s') := (s.goto w none).registerKey setup save hex
            (adminKey setup key name now)
          (some (.registered (r.map fun _ => true)), s')
      | _ => (none, s)
  | .getRepoResolve w apiKey now =>
      match s.inFlight w, apiKey with
      | some _, _ => (none, s)
      | none, none => (some (.repo (.error .missingKey)), s)
      | none, some key =>
          match s.live setup key now with
          | none => (some (.repo (.error .invalidKey)), s)
          | some stored => (none, s.goto w (some (.touch key stored.tenantId)))
  | .getRepoTouch w now =>
      match s.inFlight w with
      | some (.touch key tenant) =>
          (none, (s.touch setup key now).goto w (some (.choose key tenant)))
      | _ => (none, s)
  | .getRepoChoose w now =>
      match s.inFlight w with
      | some (.choose key tenant) =>
          let (r, s') := (s.goto w none).chooseRepo setup key tenant now
          (some (.repo r), s')
      | _ => (none, s)
  | .restart save =>
      let (r, s') := s.restart setup save
      (some (.restarted r), s')

def step (action : Action W) : Server W := (s.call setup action).2

end Server

end Auth

end AgentStateGraph
