import AgentStateGraph.Sync.Bundle

/-!
# The bundle format is strict and reads back

What the writer writes, the reader reads back, within the limits of both.
Whatever the reader accepts is a whole stream of verified records closed by an
end record, so a bundle cut short is never accepted.
-/

namespace AgentStateGraph

namespace Bundles

/-! ## Records as they are written -/

/-- A string with its length before it. -/
def strBytes (s : String) : Bytes :=
  BigEndian.encode 2 s.utf8ByteSize ++ stringBytes s

namespace Record

def kind : Record → UInt8
  | .ref _ => KIND_REF
  | .shallow _ => KIND_SHALLOW
  | .commit _ => KIND_COMMIT
  | .object _ _ => KIND_OBJECT

/-- The payload the writer gives a record; nothing for a commit that has no
JSON. -/
def payload (codec : Codec) : Record → Bytes
  | .ref r => strBytes r.namespace_.name ++ strBytes r.name ++ r.target.bytes
  | .shallow id => id.bytes
  | .commit c => (codec.commitJson c).toOption.getD []
  | .object id o => id.bytes ++ codec.canonicalBytes o

def bytes (codec : Codec) (record : Record) : Bytes :=
  frame record.kind (record.payload codec)

/-- The record is what the payload of the given kind says, and the id it is
filed under is that of its content. -/
inductive ParsedFrom (codec : Codec) : UInt8 × Bytes → Record → Prop where
  | ref {payload : Bytes} {r : BundleRef}
      (hparse : parseRef codec payload = .ok r) :
      ParsedFrom codec (KIND_REF, payload) (.ref r)
  | shallow {payload : Bytes} {id : ObjectId} (hbytes : payload = id.bytes) :
      ParsedFrom codec (KIND_SHALLOW, payload) (.shallow id)
  | commit {payload : Bytes} {c : RawCommit}
      (hparse : codec.parseCommit payload = .ok c)
      (hid : codec.computeId c.content = c.id) :
      ParsedFrom codec (KIND_COMMIT, payload) (.commit c)
  | object {payload rest : Bytes} {id : ObjectId} {o : Object ObjectId}
      (hbytes : payload = id.bytes ++ rest)
      (hparse : codec.parseObject rest = .ok o) (hid : codec.objectId o = id) :
      ParsedFrom codec (KIND_OBJECT, payload) (.object id o)

end Record

@[simp] theorem length_frame (kind : UInt8) (payload : Bytes) :
    (frame kind payload).length = 5 + payload.length := by
  simp [frame]
  omega

@[simp] theorem length_stringBytes (s : String) :
    (stringBytes s).length = s.utf8ByteSize := by
  simp [stringBytes]

/-! ## Reading a frame -/

namespace BundleReader

/-- The reader past some bytes. -/
def past (r : BundleReader) (rest : Bytes) : BundleReader :=
  { r with rest := rest }

theorem read_append {r : BundleReader} {front tail : Bytes}
    (hrest : r.rest = front ++ tail) :
    r.read front.length = .ok (front, r.past tail) := by
  unfold read
  rw [if_pos (by rw [hrest]; simp), hrest]
  simp [past]

theorem read_eq_ok {r r' : BundleReader} {n : ℕ} {front : Bytes}
    (h : r.read n = .ok (front, r')) :
    front.length = n ∧ r.rest = front ++ r'.rest ∧ r' = r.past r'.rest := by
  unfold read at h
  split at h
  next hlen =>
    simp only [Except.ok.injEq, Prod.mk.injEq] at h
    obtain ⟨rfl, rfl⟩ := h
    exact ⟨by simp [hlen], by simp, rfl⟩
  next => contradiction

theorem readRecord_frame (codec : Codec) {r : BundleReader} {kind : UInt8}
    {payload tail : Bytes} (hrest : r.rest = frame kind payload ++ tail)
    (hlen : payload.length < 2 ^ 32)
    (hrecord : payload.length ≤ r.limits.maxRecordBytes)
    (htotal : r.uncompressed + (5 + payload.length) ≤
      r.limits.maxUncompressedBytes) :
    r.readRecord codec =
      ((r.count payload.length).past tail).readKind codec kind payload := by
  have hhead : (kind :: BigEndian.encode 4 payload.length).length = 5 := by simp
  have hread := @read_append r (kind :: BigEndian.encode 4 payload.length)
    (payload ++ tail) (by rw [hrest]; simp [frame])
  rw [hhead] at hread
  have hdecode : BigEndian.decode (BigEndian.encode 4 payload.length) =
      payload.length := BigEndian.decode_encode (by norm_num; exact hlen)
  have hnot : ¬(r.limits.maxUncompressedBytes <
      min (r.uncompressed + (5 + payload.length)) (2 ^ 64 - 1)) := by
    omega
  simp only [readRecord, hread, Except.ok_bind, List.drop_succ_cons,
    List.drop_zero, hdecode, List.headD_cons]
  rw [if_neg (by simpa [past] using hrecord),
    if_neg (by simpa [past, count] using hnot)]
  have hread' := @read_append ((r.past (payload ++ tail)).count payload.length)
    payload tail rfl
  rw [hread', Except.ok_bind]
  rfl

theorem readRecord_eq_ok {codec : Codec} {r : BundleReader}
    {result : Option Record × BundleReader}
    (h : r.readRecord codec = .ok result) :
    ∃ kind payload tail, r.rest = frame kind payload ++ tail ∧
      ((r.count payload.length).past tail).readKind codec kind payload =
        .ok result := by
  obtain ⟨⟨head, r₁⟩, hhead, h⟩ := Except.bind_eq_ok_iff.mp h
  simp only at h
  obtain ⟨hlen, hrest, hr₁⟩ := read_eq_ok hhead
  split at h
  next => contradiction
  next =>
    split at h
    next => contradiction
    next =>
      obtain ⟨⟨payload, r₂⟩, hpayload, h⟩ := Except.bind_eq_ok_iff.mp h
      obtain ⟨hlen', hrest', hr₂⟩ := read_eq_ok hpayload
      simp only at h
      cases head with
      | nil => simp at hlen
      | cons kind size =>
          refine ⟨kind, payload, r₂.rest, ?_, ?_⟩
          · have hsize : size.length = 4 := by simpa using hlen
            have hencode : BigEndian.encode 4 payload.length = size := by
              rw [hlen', ← hsize]
              exact BigEndian.encode_decode size
            have hr₁rest : r₁.rest = payload ++ r₂.rest := hrest'
            rw [hrest, hr₁rest, frame, hencode]
            simp
          · rw [hlen']
            rw [hr₂, hr₁] at h
            exact h

end BundleReader

/-! ## Reading a payload -/

theorem fromUTF8?_stringBytes (s : String) :
    String.fromUTF8? ⟨(stringBytes s).toArray⟩ = some s := by
  have hbytes : (⟨(stringBytes s).toArray⟩ : ByteArray) = s.toByteArray := by
    simp [stringBytes]
  rw [hbytes, String.fromUTF8?, dif_pos s.isValidUTF8]
  rfl

theorem takeStr_strBytes {s : String} (h : s.utf8ByteSize < 2 ^ 16)
    (tail : Bytes) : takeStr (strBytes s ++ tail) = .ok (s, tail) := by
  have hdecode : BigEndian.decode (BigEndian.encode 2 s.utf8ByteSize) =
      s.utf8ByteSize := BigEndian.decode_encode (by norm_num; exact h)
  have htake : (strBytes s ++ tail).take 2 =
      BigEndian.encode 2 s.utf8ByteSize := by
    simp [strBytes]
  have hdrop : (strBytes s ++ tail).drop 2 = stringBytes s ++ tail := by
    simp [strBytes]
  have htakeStr : (stringBytes s ++ tail).take s.utf8ByteSize =
      stringBytes s := by
    rw [← length_stringBytes, List.take_left]
  have hdropStr : (stringBytes s ++ tail).drop s.utf8ByteSize = tail := by
    rw [← length_stringBytes, List.drop_left]
  simp only [takeStr, htake, hdrop, hdecode, htakeStr, hdropStr,
    fromUTF8?_stringBytes]
  rw [if_neg (by simp [strBytes]; omega), if_neg (by simp)]

theorem parseId_bytes (id : ObjectId) (what : String) :
    parseId id.bytes what = .ok id := by
  simp [parseId, id.length_eq]

theorem parseId_eq_ok {bytes : Bytes} {what : String} {id : ObjectId}
    (h : parseId bytes what = .ok id) : bytes = id.bytes := by
  unfold parseId at h
  split at h
  next => rw [← Except.ok.inj h]
  next => contradiction

theorem parseRef_payload (codec : Codec) {r : BundleRef} (hname : r.name ≠ "")
    (hlen : r.name.utf8ByteSize < 2 ^ 16) :
    parseRef codec ((Record.ref r).payload codec) = .ok r := by
  have hns : r.namespace_.name.utf8ByteSize < 2 ^ 16 := by
    have hshort := r.namespace_.short
    have hmax : MAX_NAMESPACE_LEN < 2 ^ 16 := by decide
    omega
  simp only [Record.payload, List.append_assoc]
  simp only [parseRef, takeStr_strBytes hns, Except.ok_bind,
    takeStr_strBytes hlen, parseId_bytes, Namespace.new_name, if_neg hname]

namespace BundleReader

/-- The reader once a record is noted. -/
def note (r : BundleReader) : Record → BundleReader
  | .ref ref => { r with refs := (ref.namespace_, ref.name) :: r.refs }
  | .shallow id => { r with shallow := id :: r.shallow }
  | .commit _ => { r with commits := r.commits + 1 }
  | .object _ _ => { r with objects := r.objects + 1 }

/-- The limits and the records before leave room for this one. -/
def HasRoom (r : BundleReader) : Record → Prop
  | .ref ref => r.refs.length < r.limits.maxRefs ∧
      (ref.namespace_, ref.name) ∉ r.refs
  | .shallow id => r.shallow.length < r.limits.maxCommits ∧ id ∉ r.shallow
  | .commit _ => r.commits < r.limits.maxCommits
  | .object _ _ => r.objects < r.limits.maxObjects

theorem readKind_of_parsedFrom {codec : Codec} {r : BundleReader}
    {kind : UInt8} {payload : Bytes} {record : Record}
    (hparsed : record.ParsedFrom codec (kind, payload))
    (hroom : r.HasRoom record) :
    r.readKind codec kind payload = .ok (some record, r.note record) := by
  cases hparsed with
  | ref hparse =>
      have hnot := hroom.1.not_ge
      simp [readKind, readRef, KIND_REF, KIND_END, hparse, hroom.2, hnot,
        note]
  | shallow hbytes =>
      have hnot := hroom.1.not_ge
      simp [readKind, readShallow, KIND_SHALLOW, KIND_REF, KIND_END, hbytes,
        parseId_bytes, hroom.2, hnot, note]
  | commit hparse hid =>
      have hnot := (show r.commits < r.limits.maxCommits from hroom).not_ge
      simp [readKind, readCommit, KIND_COMMIT, KIND_SHALLOW, KIND_REF,
        KIND_END, hparse, hid, hnot, note]
  | @object _ rest id o hbytes hparse hid =>
      have hnot := (show r.objects < r.limits.maxObjects from hroom).not_ge
      have htake : payload.take 32 = id.bytes := by
        rw [hbytes, ← id.length_eq, List.take_left]
      have hdrop : payload.drop 32 = rest := by
        rw [hbytes, ← id.length_eq, List.drop_left]
      have hlen : ¬payload.length < 32 := by
        rw [hbytes, List.length_append, id.length_eq]
        omega
      simp [readKind, readObject, KIND_OBJECT, KIND_COMMIT, KIND_SHALLOW,
        KIND_REF, KIND_END, htake, hdrop, hlen, parseId_bytes, hparse, hid,
        hnot, note]

theorem readKind_eq_ok {codec : Codec} {r r' : BundleReader} {kind : UInt8}
    {payload : Bytes} {result : Option Record}
    (h : r.readKind codec kind payload = .ok (result, r')) :
    match result with
    | some record => record.ParsedFrom codec (kind, payload) ∧
        r' = r.note record
    | none => kind = KIND_END ∧ payload = [] ∧ r.rest = [] ∧
        r.ending = .finished := by
  unfold readKind at h
  split at h
  next hkind =>
    unfold readEnd at h
    split at h
    next => contradiction
    next hpayload =>
      split at h
      next => contradiction
      next hrest =>
        split at h
        next hend =>
          simp only [Except.ok.injEq, Prod.mk.injEq] at h
          obtain ⟨rfl, -⟩ := h
          exact ⟨hkind, not_not.mp hpayload, not_not.mp hrest, hend⟩
        next => contradiction
  next =>
    split at h
    next hkind =>
      obtain ⟨ref, hparse, h⟩ := Except.bind_eq_ok_iff.mp h
      split at h
      next => contradiction
      next =>
        split at h
        next => contradiction
        next =>
          simp only [Except.ok.injEq, Prod.mk.injEq] at h
          obtain ⟨rfl, rfl⟩ := h
          subst hkind
          exact ⟨.ref hparse, rfl⟩
    next =>
      split at h
      next hkind =>
        obtain ⟨id, hid, h⟩ := Except.bind_eq_ok_iff.mp h
        split at h
        next => contradiction
        next =>
          split at h
          next => contradiction
          next =>
            simp only [Except.ok.injEq, Prod.mk.injEq] at h
            obtain ⟨rfl, rfl⟩ := h
            subst hkind
            exact ⟨.shallow (parseId_eq_ok hid), rfl⟩
      next =>
        split at h
        next hkind =>
          unfold readCommit at h
          split at h
          next => contradiction
          next =>
            split at h
            next => contradiction
            next c hparse =>
              simp only at h
              split at h
              next => contradiction
              next hid =>
                simp only [Except.ok.injEq, Prod.mk.injEq] at h
                obtain ⟨rfl, rfl⟩ := h
                subst hkind
                exact ⟨.commit hparse (not_not.mp hid), rfl⟩
        next =>
          split at h
          next hkind =>
            unfold readObject at h
            split at h
            next => contradiction
            next =>
              split at h
              next => contradiction
              next =>
                obtain ⟨claimed, hclaimed, h⟩ := Except.bind_eq_ok_iff.mp h
                split at h
                next => contradiction
                next o hparse =>
                  simp only at h
                  split at h
                  next => contradiction
                  next hid =>
                    simp only [Except.ok.injEq, Prod.mk.injEq] at h
                    obtain ⟨rfl, rfl⟩ := h
                    subst hkind
                    have hbytes : payload =
                        claimed.bytes ++ payload.drop 32 := by
                      rw [← parseId_eq_ok hclaimed, List.take_append_drop]
                    exact ⟨.object hbytes hparse (not_not.mp hid), rfl⟩
          next => contradiction

end BundleReader

/-! ## Reading a stream -/

namespace Record

def refKey? : Record → Option (Namespace × String)
  | .ref r => some (r.namespace_, r.name)
  | _ => none

def shallowId? : Record → Option ObjectId
  | .shallow id => some id
  | _ => none

def isCommit : Record → Bool
  | .commit _ => true
  | _ => false

def isObject : Record → Bool
  | .object _ _ => true
  | _ => false

end Record

/-- The stream of some records, without the end record. -/
def streamOf (codec : Codec) (records : List Record) : Bytes :=
  records.flatMap (Record.bytes codec)

/-- The reader has room for the records, and each payload says what its record
is. -/
structure RoomFor (codec : Codec) (r : BundleReader) (records : List Record) :
    Prop where
  size : r.uncompressed + (streamOf codec records).length + 5 ≤
    r.limits.maxUncompressedBytes
  payloads : ∀ record ∈ records, (record.payload codec).length < 2 ^ 32 ∧
    (record.payload codec).length ≤ r.limits.maxRecordBytes
  parsed : ∀ record ∈ records,
    record.ParsedFrom codec (record.kind, record.payload codec)
  refsNodup : (records.filterMap Record.refKey? ++ r.refs).Nodup
  refs : (records.filterMap Record.refKey? ++ r.refs).length ≤ r.limits.maxRefs
  shallowNodup : (records.filterMap Record.shallowId? ++ r.shallow).Nodup
  shallow : (records.filterMap Record.shallowId? ++ r.shallow).length ≤
    r.limits.maxCommits
  commits : r.commits + records.countP Record.isCommit ≤ r.limits.maxCommits
  objects : r.objects + records.countP Record.isObject ≤ r.limits.maxObjects

namespace RoomFor

variable {codec : Codec} {r : BundleReader} {record : Record}
  {records : List Record}

theorem hasRoom (h : RoomFor codec r (record :: records)) :
    r.HasRoom record := by
  cases record with
  | ref ref =>
      have hnodup := h.refsNodup
      have hlen := h.refs
      simp only [List.filterMap_cons, Record.refKey?, List.cons_append,
        List.nodup_cons, List.mem_append, not_or, List.length_cons,
        List.length_append] at hnodup hlen
      exact ⟨by omega, hnodup.1.2⟩
  | shallow id =>
      have hnodup := h.shallowNodup
      have hlen := h.shallow
      simp only [List.filterMap_cons, Record.shallowId?, List.cons_append,
        List.nodup_cons, List.mem_append, not_or, List.length_cons,
        List.length_append] at hnodup hlen
      exact ⟨by omega, hnodup.1.2⟩
  | commit c =>
      have hcommits := h.commits
      simp only [List.countP_cons, Record.isCommit, if_true] at hcommits
      simp only [BundleReader.HasRoom]
      omega
  | object id o =>
      have hobjects := h.objects
      simp only [List.countP_cons, Record.isObject, if_true] at hobjects
      simp only [BundleReader.HasRoom]
      omega

theorem tail (h : RoomFor codec r (record :: records)) (rest : Bytes) :
    RoomFor codec (((r.count (record.payload codec).length).past rest).note
      record) records := by
  have hsize := h.size
  simp only [streamOf, List.flatMap_cons, List.length_append, Record.bytes,
    length_frame] at hsize
  have hpayloads : ∀ x ∈ records, (x.payload codec).length < 2 ^ 32 ∧
      (x.payload codec).length ≤ r.limits.maxRecordBytes :=
    fun x hx => h.payloads x (List.mem_cons_of_mem _ hx)
  have hparsed : ∀ x ∈ records,
      x.ParsedFrom codec (x.kind, x.payload codec) :=
    fun x hx => h.parsed x (List.mem_cons_of_mem _ hx)
  have hcount : min (r.uncompressed + (5 + (record.payload codec).length))
      (2 ^ 64 - 1) + (records.flatMap (Record.bytes codec)).length + 5 ≤
        r.limits.maxUncompressedBytes := by
    omega
  have hrefsNodup := h.refsNodup
  have hrefs := h.refs
  have hshallowNodup := h.shallowNodup
  have hshallow := h.shallow
  have hcommits := h.commits
  have hobjects := h.objects
  cases record with
  | ref ref =>
      simp only [List.filterMap_cons, Record.refKey?, Record.shallowId?,
        List.countP_cons, Record.isCommit, Record.isObject, List.cons_append,
        Bool.false_eq_true, if_false, Nat.add_zero] at *
      exact ⟨hcount, hpayloads, hparsed,
        (List.perm_middle.nodup_iff).mpr hrefsNodup,
        by simpa [BundleReader.note, BundleReader.past, BundleReader.count,
          Nat.add_assoc] using hrefs,
        hshallowNodup, hshallow, hcommits, hobjects⟩
  | shallow id =>
      simp only [List.filterMap_cons, Record.refKey?, Record.shallowId?,
        List.countP_cons, Record.isCommit, Record.isObject, List.cons_append,
        Bool.false_eq_true, if_false, Nat.add_zero] at *
      exact ⟨hcount, hpayloads, hparsed, hrefsNodup, hrefs,
        (List.perm_middle.nodup_iff).mpr hshallowNodup,
        by simpa [BundleReader.note, BundleReader.past, BundleReader.count,
          Nat.add_assoc] using hshallow,
        hcommits, hobjects⟩
  | commit c =>
      simp only [List.filterMap_cons, Record.refKey?, Record.shallowId?,
        List.countP_cons, Record.isCommit, Record.isObject, if_true,
        Bool.false_eq_true, if_false, Nat.add_zero] at *
      refine ⟨hcount, hpayloads, hparsed, hrefsNodup, hrefs, hshallowNodup,
        hshallow, ?_, hobjects⟩
      simp only [BundleReader.note, BundleReader.past, BundleReader.count]
      omega
  | object id o =>
      simp only [List.filterMap_cons, Record.refKey?, Record.shallowId?,
        List.countP_cons, Record.isCommit, Record.isObject, if_true,
        Bool.false_eq_true, if_false, Nat.add_zero] at *
      refine ⟨hcount, hpayloads, hparsed, hrefsNodup, hrefs, hshallowNodup,
        hshallow, hcommits, ?_⟩
      simp only [BundleReader.note, BundleReader.past, BundleReader.count]
      omega

end RoomFor

theorem readAll_streamOf {codec : Codec} {r : BundleReader}
    {records : List Record} {n : ℕ} (acc : List Record)
    (hroom : RoomFor codec r records)
    (hrest : r.rest = streamOf codec records ++ frame KIND_END [])
    (hend : r.ending = .finished) (hn : records.length < n) :
    r.readAll codec n acc = .ok (acc ++ records) := by
  induction records generalizing r acc n with
  | nil =>
      obtain ⟨n, rfl⟩ := Nat.exists_eq_succ_of_ne_zero (by omega : n ≠ 0)
      have hsize := hroom.size
      simp only [streamOf, List.flatMap_nil, List.length_nil] at hsize
      have hrest' : r.rest = frame KIND_END [] ++ [] := by
        simpa [streamOf] using hrest
      have hread := BundleReader.readRecord_frame codec hrest' (by simp)
        (by simp) (by simpa using hsize)
      have hclosed : ((r.count 0).past []).readKind codec KIND_END [] =
          .ok (none, (r.count 0).past []) := by
        simp [BundleReader.readKind, BundleReader.readEnd, BundleReader.past,
          BundleReader.count, hend]
      simp only [BundleReader.readAll, hread, List.length_nil, hclosed,
        Except.ok_bind, List.append_nil]
  | cons record records ih =>
      obtain ⟨n, rfl⟩ := Nat.exists_eq_succ_of_ne_zero (by omega : n ≠ 0)
      have hsize := hroom.size
      simp only [streamOf, List.flatMap_cons, List.length_append, Record.bytes,
        length_frame] at hsize
      obtain ⟨hlen, hmax⟩ := hroom.payloads record List.mem_cons_self
      have hsplit : r.rest = frame record.kind (record.payload codec) ++
          (streamOf codec records ++ frame KIND_END []) := by
        rw [hrest]
        simp [streamOf, Record.bytes]
      have hread := BundleReader.readRecord_frame codec hsplit hlen hmax
        (by omega)
      have hkind := @BundleReader.readKind_of_parsedFrom codec
        ((r.count (record.payload codec).length).past
          (streamOf codec records ++ frame KIND_END [])) _ _ _
        (hroom.parsed record List.mem_cons_self) ?_
      · simp only [BundleReader.readAll, hread, hkind, Except.ok_bind]
        rw [ih _ (hroom.tail (streamOf codec records ++ frame KIND_END []))
          (by cases record <;> rfl) (by cases record <;> exact hend)
          (by simpa using hn)]
        simp
      · have hhas := hroom.hasRoom
        cases record <;> exact hhas

theorem readAll_eq_ok {codec : Codec} {n : ℕ} {r : BundleReader}
    {acc records : List Record} (h : r.readAll codec n acc = .ok records) :
    ∃ frames new, records = acc ++ new ∧
      r.rest = frames.flatMap (fun f : UInt8 × Bytes => frame f.1 f.2) ++
        frame KIND_END [] ∧
      r.ending = .finished ∧
      List.Forall₂ (fun f record => Record.ParsedFrom codec f record) frames
        new := by
  induction n generalizing r acc with
  | zero => contradiction
  | succ n ih =>
      obtain ⟨⟨result, r'⟩, hread, h⟩ := Except.bind_eq_ok_iff.mp h
      obtain ⟨kind, payload, tail, hrest, hkind⟩ :=
        BundleReader.readRecord_eq_ok hread
      have hsays := BundleReader.readKind_eq_ok hkind
      cases result with
      | none =>
          obtain ⟨rfl, rfl, htail, hend⟩ := hsays
          refine ⟨[], [], ?_, ?_, hend, .nil⟩
          · rw [List.append_nil]
            exact (Except.ok.inj h).symm
          · have htail' : tail = [] := htail
            simp [hrest, htail']
      | some record =>
          obtain ⟨hparsed, rfl⟩ := hsays
          obtain ⟨frames, new, rfl, hrest', hend, hall⟩ := ih h
          have htail : tail = frames.flatMap
              (fun f : UInt8 × Bytes => frame f.1 f.2) ++ frame KIND_END [] := by
            rw [← hrest']
            cases record <;> rfl
          refine ⟨(kind, payload) :: frames, record :: new, ?_, ?_, ?_,
            .cons hparsed hall⟩
          · simp
          · rw [hrest, htail]
            simp
          · cases record <;> exact hend

/-! ## Whole bundles -/

/-- The records of a bundle in the order they are written. -/
def Bundle.records (codec : Codec) (b : Bundle) : List Record :=
  b.objects.map (fun o => .object (codec.objectId o) o) ++
    b.commits.map .commit ++ b.shallow.map .shallow ++ b.refs.map .ref

/-- What the writer asks of a bundle, and what its commits must keep. -/
structure Bundle.WellFormed (codec : Codec) (b : Bundle) : Prop where
  refsNamed : ∀ r ∈ b.refs, r.name ≠ "" ∧ r.name.utf8ByteSize < 2 ^ 16
  refsDistinct : (b.refs.map fun r => (r.namespace_, r.name)).Nodup
  shallowDistinct : b.shallow.Nodup
  commitsOwnId : ∀ c ∈ b.commits, codec.computeId c.content = c.id
  payloads : ∀ record ∈ b.records codec, (record.payload codec).length < 2 ^ 32

/-- serde_json reads back what it wrote of the bundle's contents. -/
structure Bundle.JsonLossless (codec : Codec) (b : Bundle) : Prop where
  commits : ∀ c ∈ b.commits, ∃ json, codec.commitJson c = .ok json ∧
    codec.parseCommit json = .ok c
  objects : ∀ o ∈ b.objects, codec.parseObject (codec.canonicalBytes o) = .ok o

/-- zstd reads back what it compressed, and notices a stream cut short. -/
structure Codec.ZstdLossless (codec : Codec) : Prop where
  decompress_compress : ∀ content,
    codec.decompress (codec.compress content) = (content, .finished)
  cut_short : ∀ content front, front <+: codec.compress content →
    front ≠ codec.compress content →
      (codec.decompress front).2 ≠ .finished

/-- The bytes of a bundle. -/
def Bundle.encoded (codec : Codec) (b : Bundle) : Bytes :=
  BundleWriter.header ++
    codec.compress (streamOf codec (b.records codec) ++ frame KIND_END [])

/-- The bundle is within the limits. -/
structure Bundle.Within (codec : Codec) (b : Bundle) (limits : BundleLimits) :
    Prop where
  bytes : (b.encoded codec).length ≤ limits.maxBytes
  uncompressed : (streamOf codec (b.records codec)).length + 5 ≤
    limits.maxUncompressedBytes
  payloads : ∀ record ∈ b.records codec,
    (record.payload codec).length ≤ limits.maxRecordBytes
  refs : b.refs.length ≤ limits.maxRefs
  shallow : b.shallow.length ≤ limits.maxCommits
  commits : b.commits.length ≤ limits.maxCommits
  objects : b.objects.length ≤ limits.maxObjects

namespace BundleWriter

/-- The writer once it has written some bytes more. -/
def append (w : BundleWriter) (bytes : Bytes) : BundleWriter :=
  { w with content := w.content ++ bytes }

theorem append_append (w : BundleWriter) (x y : Bytes) :
    (w.append x).append y = w.append (x ++ y) := by
  simp [append]

theorem record_eq_ok (w : BundleWriter) {kind : UInt8} {payload : Bytes}
    (h : payload.length < 2 ^ 32) :
    w.record kind payload = .ok (w.append (frame kind payload)) := by
  rw [record, if_pos h]
  rfl

theorem foldlM_writeObject (codec : Codec) (w : BundleWriter)
    (objects : List (Object ObjectId))
    (h : ∀ o ∈ objects,
      ((Record.object (codec.objectId o) o).payload codec).length < 2 ^ 32) :
    objects.foldlM (writeObject codec) w =
      .ok (w.append (streamOf codec
        (objects.map fun o => .object (codec.objectId o) o))) := by
  induction objects generalizing w with
  | nil => simp [streamOf, append, pure, Except.pure]
  | cons o objects ih =>
      have hwrite : writeObject codec w o =
          .ok (w.append ((Record.object (codec.objectId o) o).bytes codec)) :=
        w.record_eq_ok (h o List.mem_cons_self)
      rw [List.foldlM_cons, hwrite, Except.ok_bind,
        ih _ fun x hx => h x (List.mem_cons_of_mem _ hx), append_append]
      rfl

theorem foldlM_writeCommit (codec : Codec) (w : BundleWriter)
    (commits : List RawCommit)
    (hjson : ∀ c ∈ commits, ∃ json, codec.commitJson c = .ok json)
    (h : ∀ c ∈ commits, ((Record.commit c).payload codec).length < 2 ^ 32) :
    commits.foldlM (writeCommit codec) w =
      .ok (w.append (streamOf codec (commits.map .commit))) := by
  induction commits generalizing w with
  | nil => simp [streamOf, append, pure, Except.pure]
  | cons c commits ih =>
      obtain ⟨json, hc⟩ := hjson c List.mem_cons_self
      have hlen := h c List.mem_cons_self
      have hpayload : (Record.commit c).payload codec = json := by
        simp [Record.payload, hc, Except.toOption]
      have hwrite : writeCommit codec w c =
          .ok (w.append ((Record.commit c).bytes codec)) := by
        rw [writeCommit, hc, Record.bytes, hpayload]
        rw [hpayload] at hlen
        exact w.record_eq_ok hlen
      rw [List.foldlM_cons, hwrite, Except.ok_bind,
        ih _ (fun x hx => hjson x (List.mem_cons_of_mem _ hx))
          fun x hx => h x (List.mem_cons_of_mem _ hx), append_append]
      rfl

theorem foldlM_writeShallow (codec : Codec) (w : BundleWriter)
    (ids : List ObjectId) (hnodup : ids.Nodup)
    (hfresh : ∀ id ∈ ids, id ∉ w.shallow) :
    ∃ seen, ids.foldlM writeShallow w =
      .ok ({ w with shallow := seen }.append
        (streamOf codec (ids.map .shallow))) := by
  induction ids generalizing w with
  | nil => exact ⟨w.shallow, by simp [streamOf, append, pure, Except.pure]⟩
  | cons id ids ih =>
      obtain ⟨hid, hids⟩ := List.nodup_cons.mp hnodup
      have hlen : id.bytes.length < 2 ^ 32 := by
        rw [id.length_eq]
        norm_num
      have hwrite : writeShallow w id =
          .ok ({ w with shallow := id :: w.shallow }.append
            ((Record.shallow id).bytes codec)) := by
        rw [writeShallow, if_neg (hfresh id List.mem_cons_self)]
        exact record_eq_ok _ hlen
      obtain ⟨seen, hseen⟩ := ih
        ({ w with shallow := id :: w.shallow }.append
          ((Record.shallow id).bytes codec)) hids (by
        intro x hx hmem
        rcases List.mem_cons.mp hmem with rfl | hmem
        · exact hid hx
        · exact hfresh x (List.mem_cons_of_mem _ hx) hmem)
      refine ⟨seen, ?_⟩
      rw [List.foldlM_cons, hwrite, Except.ok_bind, hseen]
      simp [streamOf, append]

theorem putStr_eq_ok {s : String} (h : s.utf8ByteSize < 2 ^ 16) :
    putStr s = .ok (strBytes s) := by
  rw [putStr, if_pos h]
  rfl

theorem writeRef_eq_ok (codec : Codec) (w : BundleWriter) {r : BundleRef}
    (hname : r.name ≠ "") (hsize : r.name.utf8ByteSize < 2 ^ 16)
    (hfresh : (r.namespace_, r.name) ∉ w.refs)
    (h : ((Record.ref r).payload codec).length < 2 ^ 32) :
    writeRef w r =
      .ok ({ w with refs := (r.namespace_, r.name) :: w.refs }.append
        ((Record.ref r).bytes codec)) := by
  have hns : r.namespace_.name.utf8ByteSize < 2 ^ 16 := by
    have hshort := r.namespace_.short
    have hmax : MAX_NAMESPACE_LEN < 2 ^ 16 := by decide
    omega
  rw [writeRef, if_neg hname, if_neg hfresh, putStr_eq_ok hns,
    putStr_eq_ok hsize]
  exact record_eq_ok _ h

theorem foldlM_writeRef (codec : Codec) (w : BundleWriter)
    (refs : List BundleRef)
    (hnamed : ∀ r ∈ refs, r.name ≠ "" ∧ r.name.utf8ByteSize < 2 ^ 16)
    (hnodup : (refs.map fun r => (r.namespace_, r.name)).Nodup)
    (hfresh : ∀ r ∈ refs, (r.namespace_, r.name) ∉ w.refs)
    (h : ∀ r ∈ refs, ((Record.ref r).payload codec).length < 2 ^ 32) :
    ∃ seen, refs.foldlM writeRef w =
      .ok ({ w with refs := seen }.append
        (streamOf codec (refs.map .ref))) := by
  induction refs generalizing w with
  | nil => exact ⟨w.refs, by simp [streamOf, append, pure, Except.pure]⟩
  | cons r refs ih =>
      rw [List.map_cons, List.nodup_cons] at hnodup
      obtain ⟨hname, hsize⟩ := hnamed r List.mem_cons_self
      have hwrite := writeRef_eq_ok codec w hname hsize
        (hfresh r List.mem_cons_self) (h r List.mem_cons_self)
      obtain ⟨seen, hseen⟩ := ih
        ({ w with refs := (r.namespace_, r.name) :: w.refs }.append
          ((Record.ref r).bytes codec))
        (fun x hx => hnamed x (List.mem_cons_of_mem _ hx)) hnodup.2 (by
          intro x hx hmem
          rcases List.mem_cons.mp hmem with heq | hmem
          · exact hnodup.1 (List.mem_map.mpr ⟨x, hx, heq⟩)
          · exact hfresh x (List.mem_cons_of_mem _ hx) hmem)
        fun x hx => h x (List.mem_cons_of_mem _ hx)
      refine ⟨seen, ?_⟩
      rw [List.foldlM_cons, hwrite, Except.ok_bind, hseen]
      simp [streamOf, append]

end BundleWriter

section

variable {codec : Codec} {limits : BundleLimits}

theorem Bundle.toBytes_eq_ok {b : Bundle} (hwf : b.WellFormed codec)
    (hjson : b.JsonLossless codec) :
    b.toBytes codec = .ok (b.encoded codec) := by
  have hpayload : ∀ record ∈ b.records codec,
      (record.payload codec).length < 2 ^ 32 := hwf.payloads
  have hobjects := BundleWriter.foldlM_writeObject codec BundleWriter.new
    b.objects fun o ho => hpayload _ (by simp [Bundle.records, ho])
  have hcommits := fun w => BundleWriter.foldlM_writeCommit codec w b.commits
    (fun c hc => (hjson.commits c hc).imp fun _ h => h.1)
    fun c hc => hpayload _ (by simp [Bundle.records, hc])
  rw [Bundle.toBytes, hobjects, Except.ok_bind, hcommits, Except.ok_bind]
  let w := (BundleWriter.new.append (streamOf codec
    (b.objects.map fun o => .object (codec.objectId o) o))).append
      (streamOf codec (b.commits.map .commit))
  obtain ⟨seen, hshallow⟩ := BundleWriter.foldlM_writeShallow codec w b.shallow
    hwf.shallowDistinct fun id _ => List.not_mem_nil
  rw [hshallow, Except.ok_bind]
  obtain ⟨names, hrefs⟩ := BundleWriter.foldlM_writeRef codec
    ({ w with shallow := seen }.append (streamOf codec (b.shallow.map .shallow)))
    b.refs hwf.refsNamed hwf.refsDistinct (fun r _ => List.not_mem_nil)
    fun r hr => hpayload _ (by simp [Bundle.records, hr])
  rw [hrefs, Except.ok_bind, BundleWriter.finish,
    BundleWriter.record_eq_ok _ (by simp)]
  simp [w, Bundle.encoded, Bundle.records, streamOf, BundleWriter.new,
    BundleWriter.append, bind, Except.bind]

theorem length_header : BundleWriter.header.length = HEADER_LEN := by decide

/-- The reader of an encoded stream within the cap. -/
theorem BundleReader.new_header (codec : Codec) {body : Bytes}
    (h : (BundleWriter.header ++ body).length ≤ limits.maxBytes) :
    BundleReader.new codec (BundleWriter.header ++ body) limits =
      .ok ⟨(codec.decompress body).1, (codec.decompress body).2, limits, 0, [],
        [], 0, 0⟩ := by
  have htake : (BundleWriter.header ++ body).take limits.maxBytes =
      BundleWriter.header ++ body := List.take_of_length_le h
  have hhead : (BundleWriter.header ++ body).take HEADER_LEN =
      BundleWriter.header := by
    rw [← length_header, List.take_left]
  have hbody : (BundleWriter.header ++ body).drop HEADER_LEN = body := by
    rw [← length_header, List.drop_left]
  simp only [BundleReader.new, Codec.decode, htake, hhead, hbody, if_pos h]
  rw [if_neg (by decide), if_neg (by decide), if_neg (by decide),
    if_neg (by decide), if_neg (by decide)]

theorem BundleReader.new_eq_ok {bytes : Bytes} {r : BundleReader}
    (h : BundleReader.new codec bytes limits = .ok r) :
    HEADER_LEN ≤ bytes.length ∧
      (r.rest, r.ending) = codec.decode limits bytes := by
  unfold BundleReader.new at h
  simp only at h
  split at h
  next => split at h <;> contradiction
  next hlen =>
    have hlen' : HEADER_LEN ≤ bytes.length := by
      simp only [List.length_take, not_lt] at hlen
      omega
    split at h
    next => contradiction
    next =>
      split at h
      next => contradiction
      next =>
        split at h
        next => contradiction
        next =>
          split at h
          next => contradiction
          next =>
            rw [← Except.ok.inj h]
            exact ⟨hlen', rfl⟩

theorem Codec.decode_finished {bytes : Bytes}
    (h : (codec.decode limits bytes).2 = .finished) :
    bytes.length ≤ limits.maxBytes ∧
      codec.decode limits bytes = codec.decompress (bytes.drop HEADER_LEN) := by
  unfold Codec.decode at h ⊢
  by_cases hlen : bytes.length ≤ limits.maxBytes
  · refine ⟨hlen, ?_⟩
    simp only [if_pos hlen, List.take_of_length_le hlen]
  · simp only [if_neg hlen] at h
    split at h <;> contradiction

end

theorem Bundle.foldl_push (b acc : Bundle) (codec : Codec) :
    (b.records codec).foldl Bundle.push acc =
      ⟨acc.refs ++ b.refs, acc.shallow ++ b.shallow, acc.commits ++ b.commits,
        acc.objects ++ b.objects⟩ := by
  have hobjects : ∀ (xs : List (Object ObjectId)) (a : Bundle),
      (xs.map fun o => Record.object (codec.objectId o) o).foldl Bundle.push a =
        { a with objects := a.objects ++ xs } := by
    intro xs
    induction xs with
    | nil => simp
    | cons x xs ih => simp [ih, Bundle.push]
  have hcommits : ∀ (xs : List RawCommit) (a : Bundle),
      (xs.map Record.commit).foldl Bundle.push a =
        { a with commits := a.commits ++ xs } := by
    intro xs
    induction xs with
    | nil => simp
    | cons x xs ih => simp [ih, Bundle.push]
  have hshallow : ∀ (xs : List ObjectId) (a : Bundle),
      (xs.map Record.shallow).foldl Bundle.push a =
        { a with shallow := a.shallow ++ xs } := by
    intro xs
    induction xs with
    | nil => simp
    | cons x xs ih => simp [ih, Bundle.push]
  have hrefs : ∀ (xs : List BundleRef) (a : Bundle),
      (xs.map Record.ref).foldl Bundle.push a =
        { a with refs := a.refs ++ xs } := by
    intro xs
    induction xs with
    | nil => simp
    | cons x xs ih => simp [ih, Bundle.push]
  simp only [Bundle.records, List.foldl_append, hobjects, hcommits, hshallow,
    hrefs]

section Counts

variable (codec : Codec) (b : Bundle)

theorem Bundle.refKeys : (b.records codec).filterMap Record.refKey? =
    b.refs.map fun r => (r.namespace_, r.name) := by
  simp only [Bundle.records, List.filterMap_append, List.filterMap_map]
  simp [Function.comp_def, Record.refKey?, List.filterMap_eq_map']

theorem Bundle.shallowIds : (b.records codec).filterMap Record.shallowId? =
    b.shallow := by
  simp only [Bundle.records, List.filterMap_append, List.filterMap_map]
  simp [Function.comp_def, Record.shallowId?]

theorem Bundle.countP_isCommit : (b.records codec).countP Record.isCommit =
    b.commits.length := by
  simp [Bundle.records, List.countP_map, Function.comp_def, Record.isCommit]

theorem Bundle.countP_isObject : (b.records codec).countP Record.isObject =
    b.objects.length := by
  simp [Bundle.records, List.countP_map, Function.comp_def, Record.isObject]

end Counts

section

variable {codec : Codec} {b : Bundle} {limits : BundleLimits} {bytes : Bytes}

theorem Bundle.parsedFrom (hwf : b.WellFormed codec)
    (hjson : b.JsonLossless codec) :
    ∀ record ∈ b.records codec,
      record.ParsedFrom codec (record.kind, record.payload codec) := by
  intro record hmem
  simp only [Bundle.records, List.mem_append, List.mem_map] at hmem
  rcases hmem with ((⟨o, ho, rfl⟩ | ⟨c, hc, rfl⟩) | ⟨id, hid, rfl⟩) | ⟨r, hr, rfl⟩
  · exact .object rfl (hjson.objects o ho) rfl
  · obtain ⟨json, hencode, hparse⟩ := hjson.commits c hc
    refine .commit ?_ (hwf.commitsOwnId c hc)
    simpa [Record.payload, hencode, Except.toOption] using hparse
  · exact .shallow rfl
  · obtain ⟨hname, hsize⟩ := hwf.refsNamed r hr
    exact .ref (parseRef_payload codec hname hsize)

theorem Bundle.roomFor (hwf : b.WellFormed codec) (hjson : b.JsonLossless codec)
    (hwithin : b.Within codec limits) (rest : Bytes) (ending : StreamEnd) :
    RoomFor codec ⟨rest, ending, limits, 0, [], [], 0, 0⟩ (b.records codec) where
  size := by simpa using hwithin.uncompressed
  payloads := fun record hmem =>
    ⟨hwf.payloads record hmem, hwithin.payloads record hmem⟩
  parsed := Bundle.parsedFrom hwf hjson
  refsNodup := by simpa [Bundle.refKeys] using hwf.refsDistinct
  refs := by simpa [Bundle.refKeys] using hwithin.refs
  shallowNodup := by simpa [Bundle.shallowIds] using hwf.shallowDistinct
  shallow := by simpa [Bundle.shallowIds] using hwithin.shallow
  commits := by simpa [Bundle.countP_isCommit] using hwithin.commits
  objects := by simpa [Bundle.countP_isObject] using hwithin.objects

theorem Bundle.fromBytes_encoded (hzstd : codec.ZstdLossless)
    (hwf : b.WellFormed codec) (hjson : b.JsonLossless codec)
    (hwithin : b.Within codec limits) :
    Bundle.fromBytes codec (b.encoded codec) limits = .ok b := by
  have hnew := BundleReader.new_header codec hwithin.bytes
  rw [hzstd.decompress_compress] at hnew
  have hlen : (b.records codec).length <
      (streamOf codec (b.records codec) ++ frame KIND_END []).length + 1 := by
    have hle : (b.records codec).length ≤
        (streamOf codec (b.records codec)).length := by
      generalize b.records codec = records
      induction records with
      | nil => simp
      | cons record records ih =>
          simp only [streamOf, List.flatMap_cons, List.length_append,
            List.length_cons, Record.bytes, length_frame] at ih ⊢
          omega
    rw [List.length_append]
    omega
  have hall := readAll_streamOf [] (Bundle.roomFor hwf hjson hwithin
    (streamOf codec (b.records codec) ++ frame KIND_END []) .finished)
    rfl rfl hlen
  rw [Bundle.fromBytes, readRecords, Bundle.encoded, hnew, Except.ok_bind, hall,
    Except.ok_bind, List.nil_append, Bundle.foldl_push]
  simp [Bundle.empty]

/-- A bundle that is accepted: every record was verified, and the stream is
those records and an end record, with nothing after it. -/
def Bundle.Accepted (codec : Codec) (bytes : Bytes) (b : Bundle) : Prop :=
  ∃ frames records,
    b = records.foldl Bundle.push Bundle.empty ∧
    codec.decompress (bytes.drop HEADER_LEN) =
      (frames.flatMap (fun f : UInt8 × Bytes => frame f.1 f.2) ++
        frame KIND_END [], .finished) ∧
    List.Forall₂ (fun f record => Record.ParsedFrom codec f record) frames
      records

theorem Bundle.accepted_of_fromBytes
    (h : Bundle.fromBytes codec bytes limits = .ok b) :
    HEADER_LEN ≤ bytes.length ∧ b.Accepted codec bytes := by
  obtain ⟨records, hread, h⟩ := Except.bind_eq_ok_iff.mp h
  obtain ⟨r, hnew, hall⟩ := Except.bind_eq_ok_iff.mp hread
  obtain ⟨hlen, hdecoded⟩ := BundleReader.new_eq_ok hnew
  obtain ⟨frames, new, hrecords, hrest, hend, hparsed⟩ := readAll_eq_ok hall
  have hfinished : (codec.decode limits bytes).2 = .finished := by
    rw [← hdecoded]
    exact hend
  obtain ⟨-, hdecode⟩ := Codec.decode_finished hfinished
  refine ⟨hlen, frames, records, (Except.ok.inj h).symm, ?_, ?_⟩
  · rw [← hdecode, ← hdecoded, hrest, hend]
  · rw [hrecords, List.nil_append]
    exact hparsed

theorem Bundle.toBytes_eq_header (h : b.toBytes codec = .ok bytes) :
    ∃ content, bytes = BundleWriter.header ++ codec.compress content := by
  obtain ⟨w₁, -, h⟩ := Except.bind_eq_ok_iff.mp h
  obtain ⟨w₂, -, h⟩ := Except.bind_eq_ok_iff.mp h
  obtain ⟨w₃, -, h⟩ := Except.bind_eq_ok_iff.mp h
  obtain ⟨w₄, -, h⟩ := Except.bind_eq_ok_iff.mp h
  obtain ⟨w₅, -, h⟩ := Except.bind_eq_ok_iff.mp h
  exact ⟨w₅.content, (Except.ok.inj h).symm⟩

theorem Bundle.fromBytes_ne_ok_of_cut (hzstd : codec.ZstdLossless)
    {read : Bundle} {front : Bytes} (hbytes : b.toBytes codec = .ok bytes)
    (hpre : front <+: bytes) (hne : front ≠ bytes) :
    Bundle.fromBytes codec front limits ≠ .ok read := by
  intro haccepted
  obtain ⟨content, rfl⟩ := Bundle.toBytes_eq_header hbytes
  obtain ⟨hlen, frames, records, -, hdecompress, -⟩ :=
    Bundle.accepted_of_fromBytes haccepted
  obtain ⟨cut, hcut⟩ := hpre
  have hfront : front = BundleWriter.header ++ front.drop HEADER_LEN := by
    have htake : front.take HEADER_LEN = BundleWriter.header := by
      have htaken := congrArg (List.take HEADER_LEN) hcut
      rw [List.take_append_of_le_length hlen, ← length_header,
        List.take_left] at htaken
      exact htaken
    rw [← htake, List.take_append_drop]
  have hbody : front.drop HEADER_LEN <+: codec.compress content := by
    refine ⟨cut, ?_⟩
    rw [hfront, List.append_assoc] at hcut
    exact List.append_cancel_left hcut
  refine hzstd.cut_short content _ hbody ?_ ?_
  · intro heq
    rw [heq] at hfront
    exact hne hfront
  · rw [hdecompress]

end

/-- The format, where zstd is lossless: a bundle within the limits reads back;
what is accepted is verified and closed; and no part of a bundle is accepted
for the whole. -/
theorem bundle_format (codec : Codec) (hzstd : codec.ZstdLossless) :
    (∀ (b : Bundle) limits, b.WellFormed codec → b.JsonLossless codec →
      b.Within codec limits →
        ∃ bytes, b.toBytes codec = .ok bytes ∧
          Bundle.fromBytes codec bytes limits = .ok b) ∧
      (∀ bytes limits b, Bundle.fromBytes codec bytes limits = .ok b →
        b.Accepted codec bytes) ∧
      ∀ (b read : Bundle) bytes front limits, b.toBytes codec = .ok bytes →
        front <+: bytes → front ≠ bytes →
          Bundle.fromBytes codec front limits ≠ .ok read := by
  refine ⟨?_, ?_, ?_⟩
  · intro b limits hwf hjson hwithin
    exact ⟨_, Bundle.toBytes_eq_ok hwf hjson,
      Bundle.fromBytes_encoded hzstd hwf hjson hwithin⟩
  · intro bytes limits b h
    exact (Bundle.accepted_of_fromBytes h).2
  · intro b read bytes front limits hbytes hpre hne
    exact Bundle.fromBytes_ne_ok_of_cut hzstd hbytes hpre hne

/-! ## A small bundle -/

namespace Sample

def namespace_ : Namespace where
  name := "default"
  nonempty := by decide
  short := by decide
  chars := by decide

def text : Object ObjectId := Object.string "x"

/-- `{"kind":"Atom","type":"String","value":"x"}`. -/
def json : Bytes :=
  [123, 34, 107, 105, 110, 100, 34, 58, 34, 65, 116, 111, 109, 34, 44, 34, 116,
    121, 112, 101, 34, 58, 34, 83, 116, 114, 105, 110, 103, 34, 44, 34, 118, 97,
    108, 117, 101, 34, 58, 34, 120, 34, 125]

/-- Its BLAKE3 hash. -/
def digest : ObjectId where
  bytes := [207, 131, 66, 171, 6, 218, 36, 96, 146, 81, 217, 89, 229, 170, 169,
    159, 129, 109, 153, 225, 94, 175, 28, 33, 141, 144, 134, 122, 25, 45, 223,
    219]
  length_eq := by decide

/-- Every byte is announced by a 1, and a 0 ends the stream. -/
def compress (content : Bytes) : Bytes :=
  content.flatMap (fun b => [1, b]) ++ [0]

def decompress : Bytes → Bytes × StreamEnd
  | [0] => ([], .finished)
  | 1 :: b :: rest => (b :: (decompress rest).1, (decompress rest).2)
  | [] | [1] => ([], .cut)
  | _ => ([], .failed "corrupt")

def codec : Codec where
  hash _ := digest
  computeId _ := digest
  canonicalBytes o := if o = text then json else []
  parseObject bytes := if bytes = json then .ok text else .error "not an object"
  commitJson _ := .error "no commits"
  parseCommit _ := .error "no commits"
  compress := compress
  decompress := decompress
  debug s := "\"" ++ s ++ "\""

theorem decompress_compress (content : Bytes) :
    decompress (compress content) = (content, .finished) := by
  induction content with
  | nil => rfl
  | cons b content ih =>
      have hcons : compress (b :: content) = 1 :: b :: compress content := rfl
      rw [hcons, decompress, ih]

theorem decompress_cut (content front : Bytes)
    (hpre : front <+: compress content) (hne : front ≠ compress content) :
    (decompress front).2 ≠ .finished := by
  induction content generalizing front with
  | nil =>
      rcases front with _ | ⟨x, front⟩
      · decide
      · obtain ⟨rfl, hnil⟩ := List.cons_prefix_cons.mp hpre
        rw [List.prefix_nil.mp hnil] at hne
        exact absurd rfl hne
  | cons b content ih =>
      have hcons : compress (b :: content) = 1 :: b :: compress content := rfl
      rw [hcons] at hpre hne
      rcases front with _ | ⟨x, _ | ⟨y, front⟩⟩
      · decide
      · obtain ⟨rfl, -⟩ := List.cons_prefix_cons.mp hpre
        decide
      · obtain ⟨rfl, htail⟩ := List.cons_prefix_cons.mp hpre
        obtain ⟨rfl, hrest⟩ := List.cons_prefix_cons.mp htail
        rw [decompress]
        exact ih front hrest fun heq => hne (by rw [heq])

def bundle : Bundle where
  refs := [⟨namespace_, "main", digest⟩]
  shallow := [digest]
  commits := []
  objects := [text]

/-- A ref without a name. -/
def unnamed : Bundle where
  refs := [⟨namespace_, "", digest⟩]
  shallow := []
  commits := []
  objects := []

end Sample

set_option maxRecDepth 16384 in
open Sample in
theorem bundle_format_sample :
    codec.ZstdLossless ∧ ∃ bytes, bundle.toBytes codec = .ok bytes ∧
      Bundle.fromBytes codec bytes .default = .ok bundle := by
  have hzstd : codec.ZstdLossless := ⟨decompress_compress, decompress_cut⟩
  have hwf : bundle.WellFormed codec := by
    constructor <;> decide
  have hjson : bundle.JsonLossless codec := by
    refine ⟨?_, by decide⟩
    intro c hc
    exact absurd hc List.not_mem_nil
  have hwithin : bundle.Within codec .default := by
    constructor <;> decide
  exact ⟨hzstd, (bundle_format codec hzstd).1 bundle .default hwf hjson hwithin⟩

open Sample in
/-- A bundle whose refs and shallow marks are distinct and that has no commit
with a wrong id, and that cannot be written. -/
theorem toBytes_unnamed :
    unnamed.refs.Nodup ∧ unnamed.shallow.Nodup ∧ unnamed.commits = [] ∧
      ∀ codec : Codec, unnamed.toBytes codec =
        .error (.malformed "a ref needs a name") := by
  refine ⟨by decide, by decide, rfl, ?_⟩
  intro codec
  rfl

end Bundles

end AgentStateGraph
