import AgentStateGraph.Control.Untrusted
import AgentStateGraph.Sync.BundleFormat
import AgentStateGraph.Sync.PushLog

/-!
# The body of a push

The JSON of the update with its length before it, then the bundle.  What is
read was written so, but an update is read only when its JSON is not longer
than the reader takes.

serde_json lies outside this development; `UpdateJson` has what is called of
it.
-/

namespace AgentStateGraph

open Bundles Policies PushLogs TextBytes

namespace Wire

/-- The most a push's update may take, ahead of its bundle. -/
def MAX_UPDATE_BYTES : ℕ := 2 ^ 20

/-- What a push asks a remote to do, with the findings that were let
through. -/
structure RefUpdate where
  namespace_ : Namespace
  name : String
  old : Option ObjectId
  new : ObjectId
  overrides : List PushOverride
deriving DecidableEq

/-- A push's update. -/
structure WireUpdate where
  namespace_ : String
  name : String
  old : Option String
  new : String
  overrides : List PushOverride
deriving DecidableEq

/-- `serde_json::to_vec` of an update, and `serde_json::from_slice`. -/
structure UpdateJson where
  toVec : WireUpdate → Bytes
  fromSlice : Bytes → Except String WireUpdate

/-! ## Ids -/

def toHex (id : ObjectId) : String := hexEncode id.bytes

/-- `ObjectId::from_hex`. -/
def fromHex (s : String) : Option ObjectId :=
  if isFullHex s then
    match decodePairs (hexText s) with
    | some bytes =>
        if h : bytes.length = 32 then some ⟨bytes, h⟩ else none
    | none => none
  else none

theorem isHexDigit_digitChar {d : ℕ} (h : d < 16) :
    isHexDigit (Nat.digitChar d) = true := by
  interval_cases d <;> rfl

theorem toList_hexEncode (bytes : Bytes) :
    (hexEncode bytes).toList = bytes.flatMap fun b =>
      [Nat.digitChar (b.toNat / 16), Nat.digitChar (b.toNat % 16)] := by
  rw [hexEncode, String.toList_join, List.flatMap_map]
  simp [hexByte]

theorem isHexDigit_of_mem_hexEncode {bytes : Bytes} {c : Char}
    (hc : c ∈ (hexEncode bytes).toList) : isHexDigit c = true := by
  rw [toList_hexEncode] at hc
  obtain ⟨b, -, hc⟩ := List.mem_flatMap.mp hc
  have hb : b.toNat < 256 := b.toNat_lt
  simp only [List.mem_cons, List.not_mem_nil, or_false] at hc
  obtain rfl | rfl := hc
  · exact isHexDigit_digitChar (by omega)
  · exact isHexDigit_digitChar (by omega)

@[simp] theorem fromHex_toHex (id : ObjectId) : fromHex (toHex id) = some id := by
  have htext : hexText (toHex id) = (hexEncode id.bytes).toList := by
    rw [toHex, ← String.ofList_toList (s := hexEncode id.bytes),
      Control.Untrusted.hexText_ofList fun c => isHexDigit_of_mem_hexEncode,
      String.ofList_toList]
  have hlength : (hexEncode id.bytes).toList.length = 64 := by
    rw [toList_hexEncode]
    simp [List.length_flatMap, id.length_eq]
  have hfull : isFullHex (toHex id) = true := by
    rw [isFullHex, htext, hlength, Bool.and_eq_true]
    exact ⟨rfl, List.all_eq_true.mpr fun c => isHexDigit_of_mem_hexEncode⟩
  have hpairs : decodePairs (hexEncode id.bytes).toList = some id.bytes :=
    hexDecode_hexEncode id.bytes
  simp [fromHex, hfull, htext, hpairs, id.length_eq]

/-! ## Conversions -/

variable (codec : Codec)

def id (hex : String) : Except String ObjectId :=
  match fromHex hex with
  | some id => .ok id
  | none => .error ("not a commit id: " ++ codec.debug hex)

def namespaceOf (name : String) : Except String Namespace :=
  match Namespace.new name with
  | .ok ns => .ok ns
  | .error e => .error ("not a namespace: " ++ codec.debug name ++ ": " ++
      codec.namespaceMessage e)

/-- `From<&RefUpdate>`. -/
def WireUpdate.ofUpdate (u : RefUpdate) : WireUpdate where
  namespace_ := u.namespace_.name
  name := u.name
  old := u.old.map toHex
  new := toHex u.new
  overrides := u.overrides

def WireUpdate.intoUpdate (w : WireUpdate) : Except String RefUpdate := do
  let namespace_ ← namespaceOf codec w.namespace_
  let old ← w.old.mapM (id codec)
  let new ← id codec w.new
  .ok ⟨namespace_, w.name, old, new, w.overrides⟩

@[simp] theorem id_toHex (i : ObjectId) : id codec (toHex i) = .ok i := by
  rw [id, fromHex_toHex]

@[simp] theorem namespaceOf_name (ns : Namespace) :
    namespaceOf codec ns.name = .ok ns := by
  rw [namespaceOf, Namespace.new_name]

theorem intoUpdate_ofUpdate (u : RefUpdate) :
    (WireUpdate.ofUpdate u).intoUpdate codec = .ok u := by
  have hold : (u.old.map toHex).mapM (id codec) = .ok u.old := by
    cases u.old with
    | none => rfl
    | some i =>
        rw [Option.map_some, Option.mapM_some, id_toHex]
        rfl
  simp only [WireUpdate.intoUpdate, WireUpdate.ofUpdate, namespaceOf_name, hold,
    id_toHex, Except.ok_bind]

/-! ## The body -/

variable (json : UpdateJson)

/-- The length is written as an `u32`. -/
def encodePush (update : WireUpdate) (bundle : Bytes) : Bytes :=
  BigEndian.encode 4 ((json.toVec update).length % 2 ^ 32) ++
    (json.toVec update ++ bundle)

/-- Split a push's body into its update and bundle. -/
def decodePush (body : Bytes) : Except String (WireUpdate × Bytes) :=
  if body.length < 4 then
    .error "a push's body starts with its update's length"
  else
    let len := BigEndian.decode (body.take 4)
    let rest := body.drop 4
    if MAX_UPDATE_BYTES < len ∨ rest.length < len then
      .error ("a push's update can't be " ++ Nat.repr len ++ " bytes")
    else
      match json.fromSlice (rest.take len) with
      | .ok update => .ok (update, rest.drop len)
      | .error e => .error ("a push's update: " ++ e)

theorem decodePush_append {n : ℕ} (hn : n < 2 ^ 32) (rest : Bytes) :
    decodePush json (BigEndian.encode 4 n ++ rest) =
      if MAX_UPDATE_BYTES < n ∨ rest.length < n then
        .error ("a push's update can't be " ++ Nat.repr n ++ " bytes")
      else
        match json.fromSlice (rest.take n) with
        | .ok update => .ok (update, rest.drop n)
        | .error e => .error ("a push's update: " ++ e) := by
  have htake : (BigEndian.encode 4 n ++ rest).take 4 = BigEndian.encode 4 n :=
    List.take_left' (BigEndian.length_encode 4 n)
  have hdrop : (BigEndian.encode 4 n ++ rest).drop 4 = rest :=
    List.drop_left' (BigEndian.length_encode 4 n)
  have hdecode : BigEndian.decode (BigEndian.encode 4 n) = n :=
    BigEndian.decode_encode (by norm_num; exact hn)
  have hlength : ¬(BigEndian.encode 4 n ++ rest).length < 4 := by simp
  rw [decodePush, if_neg hlength, htake, hdrop, hdecode]

theorem decodePush_eq_ok {body bundle : Bytes} {w : WireUpdate}
    (h : decodePush json body = .ok (w, bundle)) :
    ∃ head text, head.length = 4 ∧ BigEndian.decode head = text.length ∧
      text.length ≤ MAX_UPDATE_BYTES ∧ json.fromSlice text = .ok w ∧
      body = head ++ (text ++ bundle) := by
  unfold decodePush at h
  split at h
  next => contradiction
  next hlength =>
    simp only at h
    split at h
    next => contradiction
    next hfits =>
      rw [not_or, not_lt, not_lt] at hfits
      split at h
      next update hread =>
        obtain ⟨rfl, rfl⟩ := Prod.mk.inj (Except.ok.inj h)
        have htext := List.length_take_of_le hfits.2
        refine ⟨body.take 4, (body.drop 4).take (BigEndian.decode (body.take 4)),
          ?_, htext.symm, ?_, hread, ?_⟩
        · exact List.length_take_of_le (not_lt.mp hlength)
        · exact htext.trans_le hfits.1
        · rw [List.take_append_drop, List.take_append_drop]
      next => contradiction

/-- A push reads back if and only if the JSON of its update is not longer than
the reader takes; what is longer than that, and has a length of four bytes, is
refused.  Whatever is read is the four bytes of a length, that many bytes of an
update, and the bundle. -/
theorem push_codec (u : RefUpdate) (bundle : Bytes)
    (hlossless : json.fromSlice (json.toVec (.ofUpdate u)) = .ok (.ofUpdate u)) :
    ((∃ w, decodePush json (encodePush json (.ofUpdate u) bundle) =
          .ok (w, bundle) ∧ w.intoUpdate codec = .ok u) ↔
        (json.toVec (.ofUpdate u)).length ≤ MAX_UPDATE_BYTES) ∧
      (MAX_UPDATE_BYTES < (json.toVec (.ofUpdate u)).length →
        (json.toVec (.ofUpdate u)).length < 2 ^ 32 →
        decodePush json (encodePush json (.ofUpdate u) bundle) =
          .error ("a push's update can't be " ++
            Nat.repr (json.toVec (.ofUpdate u)).length ++ " bytes")) ∧
      ∀ body w bundle', decodePush json body = .ok (w, bundle') →
        ∃ head text, head.length = 4 ∧ BigEndian.decode head = text.length ∧
          text.length ≤ MAX_UPDATE_BYTES ∧ json.fromSlice text = .ok w ∧
          body = head ++ (text ++ bundle') := by
  have hmax : MAX_UPDATE_BYTES < 2 ^ 32 := by decide
  have hbody := decodePush_append json
    (Nat.mod_lt (json.toVec (.ofUpdate u)).length (by norm_num : 0 < 2 ^ 32))
    (json.toVec (.ofUpdate u) ++ bundle)
  refine ⟨⟨?_, ?_⟩, ?_, fun body w bundle' => decodePush_eq_ok json⟩
  · rintro ⟨w, hdecode, -⟩
    -- A length that was cut to four bytes leaves too much for the bundle.
    obtain ⟨head, text, hhead, hlength, hmost, -, heq⟩ :=
      decodePush_eq_ok json hdecode
    have hlengths := congrArg List.length heq
    simp only [encodePush, List.length_append, BigEndian.length_encode,
      hhead] at hlengths
    omega
  · intro hfits
    rw [Nat.mod_eq_of_lt (hfits.trans_lt hmax), List.length_append,
      if_neg (by omega), List.take_left, List.drop_left, hlossless] at hbody
    refine ⟨.ofUpdate u, ?_, intoUpdate_ofUpdate codec u⟩
    rw [encodePush, Nat.mod_eq_of_lt (hfits.trans_lt hmax)]
    exact hbody
  · intro hover hshort
    rw [encodePush, hbody, Nat.mod_eq_of_lt hshort, if_pos (.inl hover)]

/-! ## An update that is let through with a long reason -/

namespace Sample

open Bundles.Sample

/-- The JSON text of a string that needs no escapes. -/
def quoted (s : String) : String := "\"" ++ s ++ "\""

def overrideText (o : PushOverride) : String :=
  "\x7b\"finding\":" ++ quoted o.finding ++ ",\"reason\":" ++
    quoted o.reason ++ "\x7d"

/-- The JSON text of an update with some overrides. -/
def updateText (w : WireUpdate) : String :=
  "\x7b\"namespace\":" ++ quoted w.namespace_ ++ ",\"name\":" ++
    quoted w.name ++ ",\"old\":" ++ (w.old.map quoted).getD "null" ++
    ",\"new\":" ++ quoted w.new ++ ",\"overrides\":[" ++
    String.intercalate "," (w.overrides.map overrideText) ++ "]\x7d"

/-- serde_json, as far as one update goes. -/
def updateJson (u : RefUpdate) : UpdateJson where
  toVec w := stringBytes (updateText w)
  fromSlice bytes :=
    if bytes = stringBytes (updateText (.ofUpdate u)) then .ok (.ofUpdate u)
    else .error "expected value at line 1 column 1"

theorem fromSlice_toVec (u : RefUpdate) :
    (updateJson u).fromSlice ((updateJson u).toVec (.ofUpdate u)) =
      .ok (.ofUpdate u) := by
  simp [updateJson]

def update (reason : String) : RefUpdate where
  namespace_ := Bundles.Sample.namespace_
  name := "main"
  old := none
  new := digest
  overrides := [⟨"f", reason⟩]

theorem byteLength_toHex (i : ObjectId) : byteLength (toHex i).toList = 64 := by
  rw [toHex, Control.Untrusted.byteLength_of_isHexDigit
    fun c => isHexDigit_of_mem_hexEncode, toList_hexEncode]
  simp [List.length_flatMap, i.length_eq]

theorem length_updateText (reason : String) :
    (stringBytes (updateText (.ofUpdate (update reason)))).length =
      163 + byteLength reason.toList := by
  have hname : byteLength Bundles.Sample.namespace_.name.toList = 7 := rfl
  rw [length_stringBytes, ← byteLength_toList]
  unfold updateText WireUpdate.ofUpdate update overrideText quoted
  simp only [List.map_cons, List.map_nil, String.intercalate_singleton,
    Option.map_none, Option.getD_none, String.toList_append, byteLength_append,
    byteLength_toHex, hname]
  simp [Char.utf8Size]
  omega

theorem not_decodePush_of_long {reason : String} {json : UpdateJson}
    (htext : json.toVec (.ofUpdate (update reason)) =
      stringBytes (updateText (.ofUpdate (update reason))))
    (hlong : MAX_UPDATE_BYTES < byteLength reason.toList) :
    ¬∃ w, decodePush json (encodePush json (.ofUpdate (update reason)) []) =
      .ok (w, []) := by
  rintro ⟨w, hdecode⟩
  obtain ⟨head, text, hhead, -, hmost, -, heq⟩ := decodePush_eq_ok json hdecode
  have hlengths := congrArg List.length heq
  simp only [encodePush, List.length_append, BigEndian.length_encode, hhead,
    htext, length_updateText, List.append_nil] at hlengths
  omega

end Sample

open Sample in
theorem push_codec_sample :
    ∃ w, decodePush (updateJson (update "r"))
        (encodePush (updateJson (update "r")) (.ofUpdate (update "r")) [7]) =
          .ok (w, [7]) ∧ w.intoUpdate Bundles.Sample.codec = .ok (update "r") := by
  have hlength : ((updateJson (update "r")).toVec (.ofUpdate (update "r"))).length
      ≤ MAX_UPDATE_BYTES := by
    rw [updateJson, length_updateText]
    decide
  exact (push_codec Bundles.Sample.codec (updateJson (update "r")) (update "r") [7]
    (fromSlice_toVec _)).1.mpr hlength

open Sample in
/-- A reason of more than a mebibyte: the update is written, and what was
written is not read. -/
theorem push_not_read :
    let u := update (String.ofList (List.replicate (2 ^ 20 + 1) 'a'))
    (updateJson u).fromSlice ((updateJson u).toVec (.ofUpdate u)) =
        .ok (.ofUpdate u) ∧
      ¬∃ w, decodePush (updateJson u)
        (encodePush (updateJson u) (.ofUpdate u) []) = .ok (w, []) := by
  have hsize : byteLength
      (String.ofList (List.replicate (2 ^ 20 + 1) 'a')).toList = 2 ^ 20 + 1 := by
    rw [String.toList_ofList, byteLength, List.map_replicate,
      List.sum_replicate]
    rfl
  generalize String.ofList (List.replicate (2 ^ 20 + 1) 'a') = reason at hsize ⊢
  refine ⟨fromSlice_toVec _, not_decodePush_of_long rfl ?_⟩
  rw [hsize, MAX_UPDATE_BYTES]
  exact Nat.lt_succ_self _

end Wire

end AgentStateGraph
