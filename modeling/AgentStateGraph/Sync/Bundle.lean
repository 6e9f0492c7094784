import AgentStateGraph.Core.Digest
import AgentStateGraph.Lib.BigEndian
import AgentStateGraph.Lib.ExceptBind

/-!
# Bundles

Commits, objects and refs in one compressed blob.  A header of eight bytes is
followed by the records, compressed: each has a kind, the length of its
payload and the payload, and the last is the end record.  The reader computes
the id of every commit and object from its content and hands out one verified
record at a time.

BLAKE3, zstd and serde_json lie outside this development; `Codec` has what the
bundle code calls of them.
-/

namespace AgentStateGraph

namespace Bundles

abbrev Bytes := List UInt8

/-- A content address: 32 bytes. -/
structure ObjectId where
  bytes : Bytes
  length_eq : bytes.length = 32
deriving DecidableEq

theorem length_zeros : (List.replicate 32 (0 : UInt8)).length = 32 := by
  decide

/-- `{:02x}` of a byte. -/
def hexByte (b : UInt8) : String :=
  String.ofList [Nat.digitChar (b.toNat / 16), Nat.digitChar (b.toNat % 16)]

/-- `Display for ObjectId`. -/
def ObjectId.display (id : ObjectId) : String :=
  "sg_" ++ String.join (id.bytes.map hexByte)

/-! ## Namespaces -/

def MAX_NAMESPACE_LEN : ℕ := 64

def isNamespaceChar (c : Char) : Bool := c.isAlphanum || c == '-' || c == '_'

/-- A name that `Namespace::new` takes. -/
structure Namespace where
  name : String
  nonempty : name ≠ ""
  short : name.utf8ByteSize ≤ MAX_NAMESPACE_LEN
  chars : name.toList.all isNamespaceChar = true
deriving DecidableEq

inductive NamespaceError where
  | empty
  | tooLong (len : ℕ)
  | invalidChars (name : String)
deriving DecidableEq

def Namespace.new (name : String) : Except NamespaceError Namespace :=
  if hempty : name = "" then .error .empty
  else if hlen : name.utf8ByteSize ≤ MAX_NAMESPACE_LEN then
    if hchars : name.toList.all isNamespaceChar = true then
      .ok ⟨name, hempty, hlen, hchars⟩
    else .error (.invalidChars name)
  else .error (.tooLong name.utf8ByteSize)

@[simp] theorem Namespace.new_name (ns : Namespace) :
    Namespace.new ns.name = .ok ns := by
  simp [Namespace.new, ns.nonempty, ns.short, ns.chars]

/-! ## What lies outside -/

/-- A commit as its JSON has it, with the id it claims. -/
structure RawCommit where
  content : CommitHashInput ObjectId
  id : ObjectId
deriving DecidableEq

/-- How a decompressed stream ends. -/
inductive StreamEnd where
  /-- A complete frame, and no input after it. -/
  | finished
  /-- The input ends inside a frame. -/
  | cut
  | failed (message : String)
  /-- There is more input than the reader accepts. -/
  | overCap
deriving DecidableEq

/-- What the bundle code uses of BLAKE3, serde_json, zstd and `{:?}`. -/
structure Codec where
  hash : Bytes → ObjectId
  /-- `Commit::compute_id`. -/
  computeId : CommitHashInput ObjectId → ObjectId
  /-- `Object::canonical_bytes`. -/
  canonicalBytes : Object ObjectId → Bytes
  parseObject : Bytes → Except String (Object ObjectId)
  commitJson : RawCommit → Except String Bytes
  parseCommit : Bytes → Except String RawCommit
  compress : Bytes → Bytes
  /-- What comes out of a compressed stream, and how it ends. -/
  decompress : Bytes → Bytes × StreamEnd
  debug : String → String

/-- `Object::id`. -/
def Codec.objectId (codec : Codec) (o : Object ObjectId) : ObjectId :=
  codec.hash (codec.canonicalBytes o)

/-! ## The format -/

def MAGIC : Bytes := [0x41, 0x53, 0x47, 0x42]

def FORMAT_VERSION : ℕ := 1

def COMPRESSION_ZSTD : UInt8 := 1

def HEADER_LEN : ℕ := 8

def KIND_END : UInt8 := 0
def KIND_REF : UInt8 := 1
def KIND_SHALLOW : UInt8 := 2
def KIND_COMMIT : UInt8 := 3
def KIND_OBJECT : UInt8 := 4

/-- A ref a bundle carries: where `name` in `namespace_` points. -/
structure BundleRef where
  namespace_ : Namespace
  name : String
  target : ObjectId
deriving DecidableEq

/-- One record of a bundle, as the reader returns it. -/
inductive Record where
  | ref (r : BundleRef)
  | shallow (id : ObjectId)
  | commit (c : RawCommit)
  | object (id : ObjectId) (o : Object ObjectId)
deriving DecidableEq

/-- How much of a bundle a reader accepts. -/
structure BundleLimits where
  maxBytes : ℕ
  maxUncompressedBytes : ℕ
  maxRecordBytes : ℕ
  maxRefs : ℕ
  maxCommits : ℕ
  maxObjects : ℕ
deriving DecidableEq

def BundleLimits.default : BundleLimits where
  maxBytes := 256 * 2 ^ 20
  maxUncompressedBytes := 2 ^ 30
  maxRecordBytes := 64 * 2 ^ 20
  maxRefs := 10000
  maxCommits := 1000000
  maxObjects := 10000000

inductive BundleError where
  | notABundle
  | unsupportedVersion (version : ℕ)
  | unsupportedCompression (compression : UInt8)
  | overLimit (what : String) (limit : ℕ)
  | truncated
  | malformed (message : String)
  | idMismatch (kind : String) (claimed actual : ObjectId)
  | duplicate (kind what : String)
  | io (message : String)
deriving DecidableEq

/-- A whole bundle in memory. -/
structure Bundle where
  refs : List BundleRef
  shallow : List ObjectId
  commits : List RawCommit
  objects : List (Object ObjectId)
deriving DecidableEq

def Bundle.empty : Bundle := ⟨[], [], [], []⟩

def Bundle.push (b : Bundle) : Record → Bundle
  | .ref r => { b with refs := b.refs ++ [r] }
  | .shallow id => { b with shallow := b.shallow ++ [id] }
  | .commit c => { b with commits := b.commits ++ [c] }
  | .object _ o => { b with objects := b.objects ++ [o] }

/-- The text of a namespace error. -/
def Codec.namespaceMessage (codec : Codec) : NamespaceError → String
  | .empty => "namespace name must not be empty"
  | .tooLong len => "namespace name is too long (" ++ toString len ++
      " bytes, max " ++ toString MAX_NAMESPACE_LEN ++ ")"
  | .invalidChars name => "namespace name contains invalid characters: " ++
      codec.debug name ++
      " (only ASCII alphanumerics, hyphens, and underscores are allowed)"

/-! ## The writer -/

/-- The records written so far, before compression. -/
structure BundleWriter where
  content : Bytes
  refs : List (Namespace × String)
  shallow : List ObjectId

def stringBytes (s : String) : Bytes := s.toUTF8.data.toList

def putStr (s : String) : Except BundleError Bytes :=
  if s.utf8ByteSize < 2 ^ 16 then
    .ok (BigEndian.encode 2 s.utf8ByteSize ++ stringBytes s)
  else .error (.malformed ("name over " ++ toString (2 ^ 16 - 1) ++ " bytes"))

/-- A record as it stands in the stream. -/
def frame (kind : UInt8) (payload : Bytes) : Bytes :=
  kind :: (BigEndian.encode 4 payload.length ++ payload)

namespace BundleWriter

def new : BundleWriter := ⟨[], [], []⟩

def record (w : BundleWriter) (kind : UInt8) (payload : Bytes) :
    Except BundleError BundleWriter :=
  if payload.length < 2 ^ 32 then
    .ok { w with content := w.content ++ frame kind payload }
  else .error (.overLimit "bytes in one record" (2 ^ 32 - 1))

def writeRef (w : BundleWriter) (r : BundleRef) :
    Except BundleError BundleWriter :=
  if r.name = "" then .error (.malformed "a ref needs a name")
  else if (r.namespace_, r.name) ∈ w.refs then
    .error (.duplicate "ref" (r.namespace_.name ++ "/" ++ r.name))
  else do
    let ns ← putStr r.namespace_.name
    let name ← putStr r.name
    { w with refs := (r.namespace_, r.name) :: w.refs }.record KIND_REF
      (ns ++ name ++ r.target.bytes)

def writeShallow (w : BundleWriter) (id : ObjectId) :
    Except BundleError BundleWriter :=
  if id ∈ w.shallow then .ok w
  else { w with shallow := id :: w.shallow }.record KIND_SHALLOW id.bytes

def writeCommit (codec : Codec) (w : BundleWriter) (c : RawCommit) :
    Except BundleError BundleWriter :=
  match codec.commitJson c with
  | .error e => .error (.malformed ("commit " ++ c.id.display ++ ": " ++ e))
  | .ok json => w.record KIND_COMMIT json

def writeObject (codec : Codec) (w : BundleWriter) (o : Object ObjectId) :
    Except BundleError BundleWriter :=
  w.record KIND_OBJECT ((codec.objectId o).bytes ++ codec.canonicalBytes o)

/-- The eight bytes before the records. -/
def header : Bytes :=
  MAGIC ++ BigEndian.encode 2 FORMAT_VERSION ++ [COMPRESSION_ZSTD, 0]

def finish (codec : Codec) (w : BundleWriter) : Except BundleError Bytes := do
  let w ← w.record KIND_END []
  .ok (header ++ codec.compress w.content)

end BundleWriter

/-- Objects, commits, shallow records, then refs. -/
def Bundle.toBytes (codec : Codec) (b : Bundle) : Except BundleError Bytes := do
  let w ← b.objects.foldlM (BundleWriter.writeObject codec) BundleWriter.new
  let w ← b.commits.foldlM (BundleWriter.writeCommit codec) w
  let w ← b.shallow.foldlM BundleWriter.writeShallow w
  let w ← b.refs.foldlM BundleWriter.writeRef w
  w.finish codec

/-! ## The reader -/

structure BundleReader where
  /-- What is left of the decompressed stream. -/
  rest : Bytes
  ending : StreamEnd
  limits : BundleLimits
  uncompressed : ℕ
  refs : List (Namespace × String)
  shallow : List ObjectId
  commits : ℕ
  objects : ℕ

/-- What the decoder delivers of the bytes within the cap. -/
def Codec.decode (codec : Codec) (limits : BundleLimits) (bytes : Bytes) :
    Bytes × StreamEnd :=
  let decoded := codec.decompress ((bytes.take limits.maxBytes).drop HEADER_LEN)
  if bytes.length ≤ limits.maxBytes then decoded
  else
    match decoded.2 with
    | .failed message => (decoded.1, .failed message)
    | _ => (decoded.1, .overCap)

namespace BundleReader

/-- Read and check the header. -/
def new (codec : Codec) (bytes : Bytes) (limits : BundleLimits) :
    Except BundleError BundleReader :=
  let header := (bytes.take limits.maxBytes).take HEADER_LEN
  if header.length < HEADER_LEN then
    if bytes.length ≤ limits.maxBytes then .error .notABundle
    else .error (.overLimit "bytes" limits.maxBytes)
  else if header.take 4 ≠ MAGIC then .error .notABundle
  else if BigEndian.decode ((header.drop 4).take 2) ≠ FORMAT_VERSION then
    .error (.unsupportedVersion (BigEndian.decode ((header.drop 4).take 2)))
  else if header.getD 6 0 ≠ COMPRESSION_ZSTD then
    .error (.unsupportedCompression (header.getD 6 0))
  else if header.getD 7 0 ≠ 0 then
    .error (.malformed "reserved header byte isn't 0")
  else
    let decoded := codec.decode limits bytes
    .ok ⟨decoded.1, decoded.2, limits, 0, [], [], 0, 0⟩

variable (r : BundleReader)

/-- Why a read past the end fails. -/
def endError : BundleError :=
  match r.ending with
  | .finished | .cut => .truncated
  | .failed message => .io message
  | .overCap => .overLimit "bytes" r.limits.maxBytes

/-- The next `n` bytes. -/
def read (n : ℕ) : Except BundleError (Bytes × BundleReader) :=
  if n ≤ r.rest.length then
    .ok (r.rest.take n, { r with rest := r.rest.drop n })
  else .error r.endError

end BundleReader

def parseId (bytes : Bytes) (what : String) : Except BundleError ObjectId :=
  if h : bytes.length = 32 then .ok ⟨bytes, h⟩
  else .error (.malformed ("a " ++ what ++ " needs a 32-byte id"))

def takeStr (rest : Bytes) : Except BundleError (String × Bytes) :=
  let short := BundleError.malformed "a ref record ends early"
  if rest.length < 2 then .error short
  else
    let len := BigEndian.decode (rest.take 2)
    let tail := rest.drop 2
    if tail.length < len then .error short
    else
      match String.fromUTF8? ⟨(tail.take len).toArray⟩ with
      | some s => .ok (s, tail.drop len)
      | none => .error (.malformed "a ref name isn't UTF-8")

def parseRef (codec : Codec) (payload : Bytes) : Except BundleError BundleRef := do
  let (ns, rest) ← takeStr payload
  let (name, rest) ← takeStr rest
  let target ← parseId rest "ref record"
  match Namespace.new ns with
  | .error e =>
      .error (.malformed ("a ref's namespace: " ++ codec.namespaceMessage e))
  | .ok ns =>
      if name = "" then .error (.malformed "a ref needs a name")
      else .ok ⟨ns, name, target⟩

namespace BundleReader

variable (codec : Codec) (r : BundleReader)

/-- The end record: nothing in it, and nothing after it. -/
def readEnd (payload : Bytes) :
    Except BundleError (Option Record × BundleReader) :=
  if payload ≠ [] then .error (.malformed "the end record has a payload")
  else if r.rest ≠ [] then .error (.malformed "records follow the end record")
  else if r.ending = .finished then .ok (none, r)
  else .error r.endError

def readRef (payload : Bytes) :
    Except BundleError (Option Record × BundleReader) := do
  let ref ← parseRef codec payload
  if r.limits.maxRefs ≤ r.refs.length then
    .error (.overLimit "refs" r.limits.maxRefs)
  else if (ref.namespace_, ref.name) ∈ r.refs then
    .error (.duplicate "ref" (ref.namespace_.name ++ "/" ++ ref.name))
  else
    .ok (some (.ref ref),
      { r with refs := (ref.namespace_, ref.name) :: r.refs })

def readShallow (payload : Bytes) :
    Except BundleError (Option Record × BundleReader) := do
  let id ← parseId payload "shallow record"
  if r.limits.maxCommits ≤ r.shallow.length then
    .error (.overLimit "shallow commits" r.limits.maxCommits)
  else if id ∈ r.shallow then
    .error (.duplicate "shallow commit" id.display)
  else .ok (some (.shallow id), { r with shallow := id :: r.shallow })

def readCommit (payload : Bytes) :
    Except BundleError (Option Record × BundleReader) :=
  if r.limits.maxCommits ≤ r.commits then
    .error (.overLimit "commits" r.limits.maxCommits)
  else
    match codec.parseCommit payload with
    | .error e => .error (.malformed ("a commit record: " ++ e))
    | .ok c =>
        let actual := codec.computeId c.content
        if actual ≠ c.id then .error (.idMismatch "commit" c.id actual)
        else .ok (some (.commit c), { r with commits := r.commits + 1 })

def readObject (payload : Bytes) :
    Except BundleError (Option Record × BundleReader) :=
  if r.limits.maxObjects ≤ r.objects then
    .error (.overLimit "objects" r.limits.maxObjects)
  else if payload.length < 32 then
    .error (.malformed "an object record is shorter than its id")
  else do
    let claimed ← parseId (payload.take 32) "object record"
    match codec.parseObject (payload.drop 32) with
    | .error e =>
        .error (.malformed ("object " ++ claimed.display ++ ": " ++ e))
    | .ok o =>
        let actual := codec.objectId o
        if actual ≠ claimed then .error (.idMismatch "object" claimed actual)
        else
          .ok (some (.object claimed o), { r with objects := r.objects + 1 })

/-- A payload of the given kind. -/
def readKind (kind : UInt8) (payload : Bytes) :
    Except BundleError (Option Record × BundleReader) :=
  if kind = KIND_END then r.readEnd payload
  else if kind = KIND_REF then r.readRef codec payload
  else if kind = KIND_SHALLOW then r.readShallow payload
  else if kind = KIND_COMMIT then r.readCommit codec payload
  else if kind = KIND_OBJECT then r.readObject codec payload
  else .error (.malformed ("unknown record kind " ++ toString kind.toNat))

/-- Count a record of `len` bytes, in a `u64`. -/
def count (len : ℕ) : BundleReader :=
  { r with uncompressed := min (r.uncompressed + (5 + len)) (2 ^ 64 - 1) }

/-- The next record, verified; none after the end record. -/
def readRecord : Except BundleError (Option Record × BundleReader) := do
  let (head, r) ← r.read 5
  let len := BigEndian.decode (head.drop 1)
  if r.limits.maxRecordBytes < len then
    .error (.overLimit "bytes in one record" r.limits.maxRecordBytes)
  else
    let r := r.count len
    if r.limits.maxUncompressedBytes < r.uncompressed then
      .error (.overLimit "uncompressed bytes" r.limits.maxUncompressedBytes)
    else do
      let (payload, r) ← r.read len
      r.readKind codec (head.headD 0) payload

/-- `while let Some(record) = reader.next_record()?`.  Every record takes five
bytes or more, so the stream bounds the rounds. -/
def readAll : ℕ → BundleReader → List Record →
    Except BundleError (List Record)
  | 0, _, _ => .error .truncated
  | n + 1, r, records => do
      match ← r.readRecord codec with
      | (none, _) => .ok records
      | (some record, r) => readAll n r (records ++ [record])

end BundleReader

/-- Every record of a bundle. -/
def readRecords (codec : Codec) (bytes : Bytes) (limits : BundleLimits) :
    Except BundleError (List Record) := do
  let r ← BundleReader.new codec bytes limits
  r.readAll codec (r.rest.length + 1) []

def Bundle.fromBytes (codec : Codec) (bytes : Bytes) (limits : BundleLimits) :
    Except BundleError Bundle := do
  let records ← readRecords codec bytes limits
  .ok (records.foldl Bundle.push Bundle.empty)

end Bundles

end AgentStateGraph
