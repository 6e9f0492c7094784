import AgentStateGraph.Control.State
import AgentStateGraph.Lib.Panics
import AgentStateGraph.Policy.Canonical

/-!
# Reading a control tree that may be anything

The ids of a list are cut out of the texts of its chunks by byte offsets, after
a check of the length alone.  Of a tree from elsewhere such an offset need not
be on the boundary of a character, and then the cut panics.
-/

namespace AgentStateGraph

open Backend Bundles Calls Policies TextBytes

variable {Id : Type} [Digest Id]

namespace Control

namespace Untrusted

/-! ## Reading -/

section Read

variable (ofBytes : Bytes → Id)

/-- `ObjectId::from_hex`. -/
def fromHex (s : String) : Option Id :=
  if isFullHex s then (decodePairs (hexText s)).map ofBytes else none

def badChunk {α : Type} (chunkId : Id) : Calls (ControlError Id) α :=
  .error (.error (.malformed ("id list chunk " ++ displayId chunkId)))

/-- The id in the 64 bytes from `64 * k` on. -/
def pieceId (chunkId : Id) (hex : String) (k : ℕ) :
    Calls (ControlError Id) Id :=
  match slice hex.toList (64 * k) (64 * k + 64) with
  | none => .error .panics
  | some piece =>
      match fromHex ofBytes (String.ofList piece) with
      | some id => .ok id
      | none => badChunk chunkId

/-- The ids in the text of a chunk. -/
def textIds (chunkId : Id) (hex : String) :
    Calls (ControlError Id) (List Id) :=
  if hex.utf8ByteSize % 64 ≠ 0 then badChunk chunkId
  else (List.range (hex.utf8ByteSize / 64)).mapM (pieceId ofBytes chunkId hex)

variable (store : ObjectStore Id)

/-- One turn of the loop over the chunks. -/
def loadChunk (chunkId : Id) : Calls (ControlError Id) (List Id) :=
  match store.get chunkId with
  | some (.atom (.string hex)) => textIds ofBytes chunkId hex
  | _ => badChunk chunkId

def loadIds (id : Id) : Calls (ControlError Id) (List Id) := do
  match ← lift (load store id) with
  | .node (.list chunkIds) => do
      let chunks ← chunkIds.mapM (loadChunk ofBytes store)
      .ok chunks.flatten
  | _ => .error (.error (.malformed (displayId id ++ " isn't an id list")))

variable {T R E : Type} (codec : StateCodec Id T R E)

def loadEpoch (id : Id) : Calls (ControlError Id) (EpochState E Id) := do
  let doc ← lift (loadMap store id)
  let record ← lift (field "epoch" id doc "record")
  let epoch ← lift (loadJson codec.epochs.fromValue store record)
  let list ← lift (field "epoch" id doc "sealed")
  let sealedIds ← loadIds ofBytes store list
  .ok ⟨epoch, sealedIds⟩

def loadMembers (id : Id) : Calls (ControlError Id) (IdSet Id) := do
  let ids ← loadIds ofBytes store id
  .ok (Std.ExtTreeSet.ofList ids compare)

def loadKeyed {β : Type} (load : Id → Calls (ControlError Id) β)
    (e : String × Id) : Calls (ControlError Id) (String × β) := do
  let record ← load e.2
  .ok (e.1, record)

/-- Read every record of a section. -/
def readSection {β : Type} (load : Id → Calls (ControlError Id) β)
    (entries : BTreeMap String Id) :
    Calls (ControlError Id) (BTreeMap String β) := do
  let records ← entries.toList.mapM (loadKeyed load)
  .ok (Std.ExtTreeMap.ofList records compare)

/-- Read the whole control tree at `root`. -/
def read (root : Id) : Calls (ControlError Id) (ControlState Id T R E) := do
  let sections ← lift (Sections.load store root)
  let taints ← readSection
    (fun id => lift (loadJson codec.taints.fromValue store id))
    (sections .taints)
  let reminders ← readSection (fun id => lift (loadEntry codec store id))
    (sections .reminders)
  let epochs ← readSection (loadEpoch ofBytes store codec) (sections .epochs)
  let members ← readSection (loadMembers ofBytes store) (sections .members)
  .ok ⟨taints, reminders, epochs, members⟩

end Read

/-! ## Texts of ids -/

/-- Runs of 64 hex digits. -/
def HexText (hex : String) : Prop :=
  64 ∣ byteLength hex.toList ∧ ∀ c ∈ hex.toList, isHexDigit c = true

/-- Of the right length, but behind runs of 64 hex digits a character stands
across the end of the next 64 bytes. -/
def CutText (hex : String) : Prop :=
  64 ∣ byteLength hex.toList ∧
    ∃ good pre c post, hex.toList = good ++ (pre ++ c :: post) ∧
      64 ∣ good.length ∧ (∀ d ∈ good, isHexDigit d = true) ∧
      byteLength pre < 64 ∧ 64 < byteLength pre + c.utf8Size

section

variable {c : Char} {cs : List Char}

theorem toNat_of_isHexDigit (h : isHexDigit c = true) :
    48 ≤ c.toNat ∧ c.toNat ≤ 102 := by
  have hval : ∀ d : Char, d.val.toNat = d.toNat := fun _ => rfl
  simp only [isHexDigit, Char.isDigit, Bool.or_eq_true, Bool.and_eq_true,
    decide_eq_true_eq, Char.le_def, UInt32.le_iff_toNat_le, ge_iff_le,
    hval] at h
  simp only [Char.reduceToNat] at h
  omega

theorem utf8Size_of_isHexDigit (h : isHexDigit c = true) : c.utf8Size = 1 := by
  have hrange := toNat_of_isHexDigit h
  rw [Char.utf8Size_eq_one_iff, UInt32.le_iff_toNat_le]
  exact hrange.2.trans (by decide)

theorem byteLength_of_isHexDigit (h : ∀ c ∈ cs, isHexDigit c = true) :
    byteLength cs = cs.length := by
  induction cs with
  | nil => rfl
  | cons c cs ih =>
      rw [byteLength_cons, utf8Size_of_isHexDigit (h c (by simp)),
        ih fun d hd => h d (by simp [hd]), List.length_cons, Nat.add_comm]

theorem not_isWhitespace_of_isHexDigit (h : isHexDigit c = true) :
    isWhitespace c = false := by
  have hrange := toNat_of_isHexDigit h
  have hlist : c.toNat ∉ [0x20, 0x85, 0xA0, 0x1680, 0x2028, 0x2029, 0x202F,
      0x205F, 0x3000] := by
    intro hmem
    simp only [List.mem_cons, List.not_mem_nil, or_false] at hmem
    omega
  simp only [isWhitespace, Bool.or_eq_false_iff, Bool.and_eq_false_iff,
    decide_eq_false_iff_not]
  exact ⟨⟨by omega, by omega⟩, hlist⟩

theorem hexText_sublist (s : String) : (hexText s).Sublist s.toList := by
  have htrim : ((s.toList.dropWhile isWhitespace).reverse.dropWhile
      isWhitespace).reverse.Sublist s.toList := by
    rw [← List.reverse_sublist, List.reverse_reverse]
    refine (List.dropWhile_sublist _).trans ?_
    rw [List.reverse_sublist]
    exact List.dropWhile_sublist _
  rw [hexText]
  split
  · exact (List.drop_sublist _ _).trans htrim
  · exact htrim

theorem dropWhile_isWhitespace (h : ∀ c ∈ cs, isHexDigit c = true) :
    cs.dropWhile isWhitespace = cs := by
  cases cs with
  | nil => rfl
  | cons c cs =>
      apply List.dropWhile_cons_of_neg
      rw [not_isWhitespace_of_isHexDigit (h c (by simp))]
      exact Bool.false_ne_true

theorem hexText_ofList (h : ∀ c ∈ cs, isHexDigit c = true) :
    hexText (String.ofList cs) = cs := by
  have hrev : ∀ c ∈ cs.reverse, isHexDigit c = true := by
    intro c hc
    exact h c (List.mem_reverse.mp hc)
  have htrim : (((String.ofList cs).toList.dropWhile isWhitespace).reverse.dropWhile
      isWhitespace).reverse = cs := by
    rw [String.toList_ofList, dropWhile_isWhitespace h,
      dropWhile_isWhitespace hrev, List.reverse_reverse]
  rw [hexText, htrim]
  apply if_neg
  intro hpre
  obtain ⟨rest, hrest⟩ := List.isPrefixOf_iff_prefix.mp hpre
  have hs : 's' ∈ cs := by
    rw [← hrest]
    simp
  exact absurd (h 's' hs) (by decide)

theorem isFullHex_ofList_iff {piece : List Char} (h : byteLength piece = 64) :
    isFullHex (String.ofList piece) = true ↔
      ∀ c ∈ piece, isHexDigit c = true := by
  rw [isFullHex, Bool.and_eq_true, beq_iff_eq, List.all_eq_true]
  constructor
  · rintro ⟨hlen, hall⟩
    have hsub := hexText_sublist (String.ofList piece)
    rw [String.toList_ofList] at hsub
    have hle := length_le_byteLength piece
    rw [hsub.eq_of_length_le (by omega)] at hall
    exact hall
  · intro hall
    rw [hexText_ofList hall]
    refine ⟨?_, hall⟩
    rw [← byteLength_of_isHexDigit hall, h]

theorem decodePairs_isSome (n : ℕ) (hlen : cs.length = 2 * n)
    (h : ∀ c ∈ cs, isHexDigit c = true) :
    ∃ bytes, decodePairs cs = some bytes := by
  have hdigit : ∀ c ∈ cs, ∃ d, hexDigit c = some d := by
    intro c hc
    have hcases := h c hc
    simp only [isHexDigit, Char.isDigit, Bool.or_eq_true, Bool.and_eq_true,
      decide_eq_true_eq] at hcases
    rw [hexDigit]
    split
    next => exact ⟨_, rfl⟩
    next hnot =>
      split
      next => exact ⟨_, rfl⟩
      next => 
        split
        next => exact ⟨_, rfl⟩
        next => 
          rcases hcases with (hc | hc) | hc
          · exact absurd hc hnot
          · contradiction
          · contradiction
  clear h
  induction n generalizing cs with
  | zero =>
      obtain rfl := List.eq_nil_of_length_eq_zero hlen
      exact ⟨[], rfl⟩
  | succ n ih =>
      match cs with
      | [] => simp at hlen
      | [_] => simp at hlen; omega
      | hi :: lo :: rest =>
          obtain ⟨a, ha⟩ := hdigit hi (by simp)
          obtain ⟨b, hb⟩ := hdigit lo (by simp)
          have hrest : rest.length = 2 * n := by
            simp only [List.length_cons] at hlen
            omega
          obtain ⟨bytes, hbytes⟩ := ih hrest fun c hc =>
            hdigit c (by simp [hc])
          refine ⟨UInt8.ofNat (16 * a + b) :: bytes, ?_⟩
          simp [decodePairs, ha, hb, hbytes]

end

variable {ofBytes : Bytes → Id} {chunkId : Id} {hex : String}

omit [Digest Id] in
theorem fromHex_isSome_iff (ofBytes : Bytes → Id) {piece : List Char}
    (h : byteLength piece = 64) :
    (∃ id, fromHex ofBytes (String.ofList piece) = some id) ↔
      ∀ c ∈ piece, isHexDigit c = true := by
  rw [← isFullHex_ofList_iff h, fromHex]
  constructor
  · rintro ⟨id, hid⟩
    by_contra hfull
    rw [if_neg hfull] at hid
    contradiction
  · intro hfull
    have hall := (isFullHex_ofList_iff h).mp hfull
    have hlen := byteLength_of_isHexDigit hall
    obtain ⟨bytes, hbytes⟩ := decodePairs_isSome 32 (by omega) hall
    exact ⟨ofBytes bytes, by
      rw [if_pos hfull, hexText_ofList hall, hbytes, Option.map_some]⟩

theorem slice_behind {good rest : List Char} {k : ℕ}
    (hlen : good.length = 64 * k) (hgood : ∀ c ∈ good, isHexDigit c = true) :
    slice (good ++ rest) (64 * k) (64 * k + 64) =
      (splitBytes 64 rest).map Prod.fst := by
  rw [← hlen, ← byteLength_of_isHexDigit hgood]
  exact slice_append 64

theorem pieceId_panics_iff {k : ℕ} :
    Panics (pieceId ofBytes chunkId hex k) ↔
      slice hex.toList (64 * k) (64 * k + 64) = none := by
  rw [pieceId]
  split
  next h => simp [h]
  next piece h =>
    split
    next => simp [h]
    next => simp [h, badChunk]

theorem pieceId_returns_iff {good rest : List Char} {k : ℕ}
    (hhex : hex.toList = good ++ rest) (hlen : good.length = 64 * k)
    (hgood : ∀ c ∈ good, isHexDigit c = true) :
    (∃ id, pieceId ofBytes chunkId hex k = .ok id) ↔
      ∃ piece more, rest = piece ++ more ∧ piece.length = 64 ∧
        ∀ c ∈ piece, isHexDigit c = true := by
  rw [pieceId, hhex, slice_behind hlen hgood]
  constructor
  · rintro ⟨id, hid⟩
    cases hsplit : splitBytes 64 rest with
    | none => 
        rw [hsplit] at hid
        cases hid
    | some s =>
        obtain ⟨hrest, hbytes⟩ := splitBytes_eq_some_iff.mp
          (show splitBytes 64 rest = some (s.1, s.2) from hsplit)
        have hall : ∀ c ∈ s.1, isHexDigit c = true := by
          rw [← fromHex_isSome_iff ofBytes hbytes]
          rw [hsplit, Option.map_some] at hid
          dsimp only at hid
          split at hid
          next id' hid' => exact ⟨id', hid'⟩
          next => cases hid
        refine ⟨s.1, s.2, hrest, ?_, hall⟩
        rw [← byteLength_of_isHexDigit hall, hbytes]
  · rintro ⟨piece, more, rfl, hpiece, hall⟩
    have hbytes : byteLength piece = 64 := by
      rw [byteLength_of_isHexDigit hall, hpiece]
    obtain ⟨id, hid⟩ := (fromHex_isSome_iff ofBytes hbytes).mpr
      hall
    refine ⟨id, ?_⟩
    rw [splitBytes_eq_some_iff.mpr ⟨rfl, hbytes⟩, Option.map_some]
    dsimp only
    rw [hid]

/-- The first `k` cuts give ids exactly when the text starts with `k` runs of
64 hex digits. -/
theorem pieceIds_return_iff {k : ℕ} :
    (∀ j < k, ∃ id, pieceId ofBytes chunkId hex j = .ok id) ↔
      ∃ good rest, hex.toList = good ++ rest ∧ good.length = 64 * k ∧
        ∀ c ∈ good, isHexDigit c = true := by
  induction k with
  | zero => 
      refine ⟨fun _ => ⟨[], hex.toList, rfl, rfl, by simp⟩, ?_⟩
      intro _ j hj
      omega
  | succ k ih =>
      constructor
      · intro h
        obtain ⟨good, rest, hhex, hlen, hgood⟩ := ih.mp fun j hj =>
          h j (by omega)
        obtain ⟨piece, more, rfl, hpiece, hall⟩ :=
          (pieceId_returns_iff hhex hlen hgood).mp (h k (by omega))
        refine ⟨good ++ piece, more, by rw [hhex, List.append_assoc], ?_, ?_⟩
        · rw [List.length_append, hlen, hpiece]
          omega
        · intro c hc
          rcases List.mem_append.mp hc with hc | hc
          · exact hgood c hc
          · exact hall c hc
      · rintro ⟨good, rest, hhex, hlen, hgood⟩ 
        have hsplit : hex.toList =
            good.take (64 * k) ++ (good.drop (64 * k) ++ rest) := by
          rw [← List.append_assoc, List.take_append_drop, hhex]
        have htake : ∀ c ∈ good.take (64 * k), isHexDigit c = true := by
          intro c hc
          exact hgood c (List.mem_of_mem_take hc)
        have hlentake : (good.take (64 * k)).length = 64 * k := by
          rw [List.length_take]
          omega
        intro j hj
        rcases Nat.lt_succ_iff_lt_or_eq.mp hj with hj | rfl
        · exact ih.mpr ⟨_, _, hsplit, hlentake, htake⟩ j hj
        · refine (pieceId_returns_iff hsplit hlentake htake).mpr
            ⟨_, rest, rfl, ?_, ?_⟩
          · rw [List.length_drop]
            omega
          · intro c hc
            exact hgood c (List.mem_of_mem_drop hc)

theorem textIds_panics_iff :
    Panics (textIds ofBytes chunkId hex) ↔ CutText hex := by
  rw [textIds, CutText, ← byteLength_toList]
  by_cases hlen : 64 ∣ byteLength hex.toList
  · rw [if_neg (not_not.mpr (Nat.mod_eq_zero_of_dvd hlen)),
      panics_mapM_range_iff]
    constructor
    · rintro ⟨k, hk, hbefore, hpanics⟩
      obtain ⟨good, rest, hhex, hgood, hall⟩ := pieceIds_return_iff.mp hbefore
      have hbytes : byteLength hex.toList = 64 * k + byteLength rest := by
        rw [hhex, byteLength_append, byteLength_of_isHexDigit hall, hgood]
      rw [pieceId_panics_iff, hhex, slice_behind hgood hall,
        Option.map_eq_none_iff, splitBytes_eq_none_iff] at hpanics
      rcases hpanics with hshort | ⟨pre, c, post, rfl, hlt, hgt⟩
      · omega
      · exact ⟨hlen, good, pre, c, post, hhex, ⟨k, hgood⟩, hall, hlt, hgt⟩
    · rintro ⟨-, good, pre, c, post, hhex, ⟨k, hgood⟩, hall, hlt, hgt⟩
      have hbytes : byteLength hex.toList =
          64 * k + (byteLength pre + (c.utf8Size + byteLength post)) := by
        rw [hhex, byteLength_append, byteLength_append, byteLength_cons,
          byteLength_of_isHexDigit hall, hgood]
      refine ⟨k, by omega,
        pieceIds_return_iff.mpr ⟨good, _, hhex, hgood, hall⟩, ?_⟩
      rw [pieceId_panics_iff, hhex, slice_behind hgood hall,
        Option.map_eq_none_iff, splitBytes_eq_none_iff]
      exact Or.inr ⟨pre, c, post, rfl, hlt, hgt⟩
  · rw [if_pos fun h => hlen (Nat.dvd_of_mod_eq_zero h)]
    constructor
    · intro h
      exact absurd h (by simp [badChunk])
    · intro h
      exact absurd h.1 hlen

theorem textIds_returns_iff :
    (∃ ids, textIds ofBytes chunkId hex = .ok ids) ↔ HexText hex := by
  rw [textIds, HexText, ← byteLength_toList]
  by_cases hlen : 64 ∣ byteLength hex.toList
  · rw [if_neg (not_not.mpr (Nat.mod_eq_zero_of_dvd hlen)),
      returns_mapM_iff fun _ => Iff.rfl]
    simp only [List.mem_range]
    rw [pieceIds_return_iff]
    constructor
    · rintro ⟨good, rest, hhex, hgood, hall⟩
      have hbytes : byteLength hex.toList = good.length + byteLength rest := by
        rw [hhex, byteLength_append, byteLength_of_isHexDigit hall]
      have hrest : rest.length = 0 := by
        have := length_le_byteLength rest
        omega
      rw [List.eq_nil_of_length_eq_zero hrest, List.append_nil] at hhex
      rw [hhex]
      exact ⟨hhex ▸ hlen, hall⟩
    · rintro ⟨-, hall⟩
      refine ⟨hex.toList, [], by simp, ?_, hall⟩
      rw [byteLength_of_isHexDigit hall] at hlen ⊢
      omega
  · rw [if_pos fun h => hlen (Nat.dvd_of_mod_eq_zero h)]
    constructor
    · rintro ⟨ids, h⟩
      cases h
    · intro h
      exact absurd h.1 hlen

/-! ## Chunks and lists -/

def GoodChunk (store : ObjectStore Id) (id : Id) : Prop :=
  ∃ hex, store.get id = some (.atom (.string hex)) ∧ HexText hex

def CutChunk (store : ObjectStore Id) (id : Id) : Prop :=
  ∃ hex, store.get id = some (.atom (.string hex)) ∧ CutText hex

def GoodList (store : ObjectStore Id) (id : Id) : Prop :=
  ∃ l, store.get id = some (.node (.list l)) ∧ ∀ c ∈ l, GoodChunk store c

/-- A list with a chunk that is cut through a character, behind chunks that
are all read. -/
def BadList (store : ObjectStore Id) (id : Id) : Prop :=
  ∃ l, store.get id = some (.node (.list l)) ∧
    Meets (GoodChunk store) (CutChunk store) l

variable (ofBytes) (store : ObjectStore Id)

theorem loadChunk_cases (chunkId : Id) :
    (∃ hex, store.get chunkId = some (.atom (.string hex)) ∧
        loadChunk ofBytes store chunkId = textIds ofBytes chunkId hex) ∨
      (∀ hex, store.get chunkId ≠ some (.atom (.string hex))) ∧
        loadChunk ofBytes store chunkId = badChunk chunkId := by
  rw [loadChunk]
  split
  next hex h => exact Or.inl ⟨hex, h, rfl⟩
  next h => exact Or.inr ⟨h, rfl⟩

theorem loadChunk_panics_iff (chunkId : Id) :
    Panics (loadChunk ofBytes store chunkId) ↔ CutChunk store chunkId := by
  rcases loadChunk_cases ofBytes store chunkId with
    ⟨hex, hget, heq⟩ | ⟨hno, heq⟩
  · rw [heq, textIds_panics_iff, CutChunk, hget]
    simp
  · rw [heq, CutChunk]
    simp [badChunk, hno]

theorem loadChunk_returns_iff (chunkId : Id) :
    (∃ ids, loadChunk ofBytes store chunkId = .ok ids) ↔
      GoodChunk store chunkId := by
  rcases loadChunk_cases ofBytes store chunkId with
    ⟨hex, hget, heq⟩ | ⟨hno, heq⟩
  · rw [heq, textIds_returns_iff, GoodChunk, hget]
    simp
  · rw [heq, GoodChunk]
    simp [badChunk, hno]

theorem loadIds_cases (id : Id) :
    (∃ l, store.get id = some (.node (.list l)) ∧
        loadIds ofBytes store id = (do
          let chunks ← l.mapM (loadChunk ofBytes store)
          .ok chunks.flatten)) ∨
      (∀ l, store.get id ≠ some (.node (.list l))) ∧
        ∃ e, loadIds ofBytes store id = .error (.error e) := by
  rw [loadIds, load]
  cases hget : store.get id with
  | none => exact Or.inr ⟨by simp, _, rfl⟩
  | some o =>
      dsimp only [lift]
      rw [Except.ok_bind]
      split
      next l => exact Or.inl ⟨l, rfl, rfl⟩
      next h => 
        refine Or.inr ⟨?_, _, rfl⟩
        intro l hl
        exact h l (Option.some.inj hl)

theorem loadIds_panics_iff (id : Id) :
    Panics (loadIds ofBytes store id) ↔ BadList store id := by
  rcases loadIds_cases ofBytes store id with
    ⟨l, hget, heq⟩ | ⟨hno, e, heq⟩
  · rw [heq, panics_bind_iff, panics_mapM_iff_meets
      (loadChunk_returns_iff ofBytes store) (loadChunk_panics_iff ofBytes store),
      BadList, hget]
    simp
  · rw [heq, BadList]
    simp [hno]

theorem loadIds_returns_iff (id : Id) :
    (∃ ids, loadIds ofBytes store id = .ok ids) ↔ GoodList store id := by
  rcases loadIds_cases ofBytes store id with
    ⟨l, hget, heq⟩ | ⟨hno, e, heq⟩
  · have hloop := returns_mapM_iff (loadChunk_returns_iff ofBytes store) l
    simp only [heq, Except.bind_eq_ok_iff, GoodList, hget]
    simp [hloop]
  · rw [heq, GoodList]
    simp [hno]

/-! ## Records -/

variable {T R E : Type} (codec : StateCodec Id T R E)

/-- The list of the sealed commits of an epoch whose record is read. -/
def SealedList (codec : StateCodec Id T R E) (store : ObjectStore Id)
    (id list : Id) : Prop :=
  ∃ doc record epoch, loadMap store id = .ok doc ∧
    field "epoch" id doc "record" = .ok record ∧
    loadJson codec.epochs.fromValue store record = .ok epoch ∧
    field "epoch" id doc "sealed" = .ok list

def GoodEpoch (codec : StateCodec Id T R E) (store : ObjectStore Id)
    (id : Id) : Prop :=
  ∃ list, SealedList codec store id list ∧ GoodList store list

def BadEpoch (codec : StateCodec Id T R E) (store : ObjectStore Id)
    (id : Id) : Prop :=
  ∃ list, SealedList codec store id list ∧ BadList store list

theorem loadEpoch_panics_iff (id : Id) :
    Panics (loadEpoch ofBytes store codec id) ↔ BadEpoch codec store id := by
  simp only [loadEpoch, panics_bind_iff, not_panics_lift, lift_eq_ok_iff,
    loadIds_panics_iff, not_panics_ok, false_or, and_false, exists_false,
    or_false]
  constructor
  · rintro ⟨doc, hdoc, record, hrecord, epoch, hepoch, list, hlist, hbad⟩
    exact ⟨list, ⟨doc, record, epoch, hdoc, hrecord, hepoch, hlist⟩, hbad⟩
  · rintro ⟨list, ⟨doc, record, epoch, hdoc, hrecord, hepoch, hlist⟩, hbad⟩
    exact ⟨doc, hdoc, record, hrecord, epoch, hepoch, list, hlist, hbad⟩

theorem loadEpoch_returns_iff (id : Id) :
    (∃ epoch, loadEpoch ofBytes store codec id = .ok epoch) ↔
      GoodEpoch codec store id := by
  simp only [GoodEpoch, ← loadIds_returns_iff ofBytes, loadEpoch,
    Except.bind_eq_ok_iff, lift_eq_ok_iff]
  constructor
  · rintro ⟨_, doc, hdoc, record, hrecord, epoch, hepoch, list, hlist, ids,
      hids, -⟩
    exact ⟨list, ⟨doc, record, epoch, hdoc, hrecord, hepoch, hlist⟩, ids, hids⟩
  · rintro ⟨list, ⟨doc, record, epoch, hdoc, hrecord, hepoch, hlist⟩, ids,
      hids⟩
    exact ⟨_, doc, hdoc, record, hrecord, epoch, hepoch, list, hlist, ids,
      hids, rfl⟩

theorem loadMembers_panics_iff (id : Id) :
    Panics (loadMembers ofBytes store id) ↔ BadList store id := by
  simp only [loadMembers, panics_bind_iff, loadIds_panics_iff, not_panics_ok,
    and_false, exists_false, or_false]

theorem loadMembers_returns_iff (id : Id) :
    (∃ ids, loadMembers ofBytes store id = .ok ids) ↔ GoodList store id := by
  simp only [← loadIds_returns_iff ofBytes, loadMembers,
    Except.bind_eq_ok_iff]
  constructor
  · rintro ⟨_, ids, hids, -⟩
    exact ⟨ids, hids⟩
  · rintro ⟨ids, hids⟩
    exact ⟨_, ids, hids, rfl⟩

/-! ## Trees -/

section Sections

variable {β : Type} {load : Id → Calls (ControlError Id) β}
  {good bad : Id → Prop}

omit [Digest Id] in
theorem loadKeyed_returns_iff
    (hgood : ∀ id, (∃ b, load id = .ok b) ↔ good id) (e : String × Id) :
    (∃ r, loadKeyed load e = .ok r) ↔ good e.2 := by
  rw [← hgood]
  constructor
  · rintro ⟨r, hr⟩
    obtain ⟨b, hb, -⟩ := Except.bind_eq_ok_iff.mp hr
    exact ⟨b, hb⟩
  · rintro ⟨b, hb⟩
    exact ⟨(e.1, b), Except.bind_eq_ok_iff.mpr ⟨b, hb, rfl⟩⟩

omit [Digest Id] in
theorem readSection_panics_iff (hgood : ∀ id, (∃ b, load id = .ok b) ↔ good id)
    (hbad : ∀ id, Panics (load id) ↔ bad id) (entries : BTreeMap String Id) :
    Panics (readSection load entries) ↔
      Meets (fun e => good e.2) (fun e => bad e.2) entries.toList := by
  have hpanics : ∀ e : String × Id, Panics (loadKeyed load e) ↔ bad e.2 := by
    intro e
    rw [← hbad, loadKeyed, panics_bind_iff]
    simp
  rw [readSection, panics_bind_iff,
    panics_mapM_iff_meets (loadKeyed_returns_iff hgood) hpanics]
  simp

omit [Digest Id] in
theorem readSection_returns_iff
    (hgood : ∀ id, (∃ b, load id = .ok b) ↔ good id)
    (entries : BTreeMap String Id) :
    (∃ m, readSection load entries = .ok m) ↔
      ∀ e ∈ entries.toList, good e.2 := by
  rw [← returns_mapM_iff (loadKeyed_returns_iff hgood)]
  constructor
  · rintro ⟨m, hm⟩
    obtain ⟨r, hr, -⟩ := Except.bind_eq_ok_iff.mp hm
    exact ⟨r, hr⟩
  · rintro ⟨r, hr⟩
    exact ⟨_, Except.bind_eq_ok_iff.mpr ⟨r, hr, rfl⟩⟩

end Sections

/-- Every taint and every reminder is read, and so are the epochs and the
members up to one whose list is bad. -/
def BadTree (codec : StateCodec Id T R E) (store : ObjectStore Id)
    (root : Id) : Prop :=
  ∃ sections, Sections.load store root = .ok sections ∧
    (∀ e ∈ (sections .taints).toList,
      ∃ t, loadJson codec.taints.fromValue store e.2 = .ok t) ∧
    (∀ e ∈ (sections .reminders).toList,
      ∃ r, loadEntry codec store e.2 = .ok r) ∧
    (Meets (fun e => GoodEpoch codec store e.2)
        (fun e => BadEpoch codec store e.2) (sections .epochs).toList ∨
      (∀ e ∈ (sections .epochs).toList, GoodEpoch codec store e.2) ∧
        Meets (fun e => GoodList store e.2) (fun e => BadList store e.2)
          (sections .members).toList)

omit [Digest Id] in
theorem readSection_lift_returns {β : Type}
    {load : Id → Except (ControlError Id) β} {entries : BTreeMap String Id} :
    (∃ m, readSection (fun id => lift (load id)) entries = .ok m) ↔
      ∀ e ∈ entries.toList, ∃ b, load e.2 = .ok b := by
  have hgood : ∀ id, (∃ b, (lift (load id) : Calls (ControlError Id) β) =
      .ok b) ↔ ∃ b, load id = .ok b := by
    intro id
    simp only [lift_eq_ok_iff]
  exact readSection_returns_iff hgood entries

omit [Digest Id] in
theorem readSection_lift_not_panics {β : Type}
    {load : Id → Except (ControlError Id) β} {entries : BTreeMap String Id} :
    ¬ Panics (readSection (fun id => lift (load id)) entries) := by
  have hbad : ∀ id, Panics (lift (load id)) ↔ False := by
    intro id
    simp only [not_panics_lift]
  rw [readSection_panics_iff (fun _ => Iff.rfl) hbad]
  rintro ⟨_, _, _, _, _, h⟩
  exact h

theorem read_panics_iff (root : Id) :
    Panics (read ofBytes store codec root) ↔ BadTree codec store root := by
  have hepochs := readSection_panics_iff
    (loadEpoch_returns_iff ofBytes store codec)
    (loadEpoch_panics_iff ofBytes store codec)
  have hread := readSection_returns_iff
    (loadEpoch_returns_iff ofBytes store codec)
  have hmembers := readSection_panics_iff
    (loadMembers_returns_iff ofBytes store)
    (loadMembers_panics_iff ofBytes store)
  rw [read, panics_lift_bind_iff, BadTree]
  refine exists_congr fun sections => and_congr_right fun _ => ?_
  rw [panics_bind_iff, or_iff_right readSection_lift_not_panics,
    ← readSection_lift_returns, ← readSection_lift_returns, ← hread,
    ← hepochs, ← hmembers]
  constructor
  · rintro ⟨taints, htaints, h⟩
    rw [panics_bind_iff, or_iff_right readSection_lift_not_panics] at h
    obtain ⟨reminders, hreminders, h⟩ := h
    refine ⟨⟨taints, htaints⟩, ⟨reminders, hreminders⟩, ?_⟩
    rcases panics_bind_iff.mp h with h | ⟨epochs, hepochs, h⟩
    · exact Or.inl h
    · refine Or.inr ⟨⟨epochs, hepochs⟩, ?_⟩
      rcases panics_bind_iff.mp h with h | ⟨members, -, h⟩
      · exact h
      · exact absurd h not_panics_ok
  · rintro ⟨⟨taints, htaints⟩, ⟨reminders, hreminders⟩, h⟩
    refine ⟨taints, htaints, panics_bind_iff.mpr (Or.inr
      ⟨reminders, hreminders, panics_bind_iff.mpr ?_⟩)⟩
    rcases h with h | ⟨⟨epochs, hepochs⟩, h⟩
    · exact Or.inl h
    · exact Or.inr ⟨epochs, hepochs, panics_bind_iff.mpr (Or.inl h)⟩

/-- A list of ids is read, or refused, for every list exactly when no chunk of
it that is reached is cut through a character; a whole control tree exactly
when no list is that is reached. -/
theorem read_never_panics_iff (ofBytes : Bytes → Id)
    (codec : StateCodec Id T R E) (store : ObjectStore Id) :
    (∀ id, ¬ Panics (loadIds ofBytes store id) ↔ ¬ BadList store id) ∧
      ∀ root, ¬ Panics (read ofBytes store codec root) ↔
        ¬ BadTree codec store root :=
  ⟨fun id => not_congr (loadIds_panics_iff ofBytes store id),
    fun root => not_congr (read_panics_iff ofBytes store codec root)⟩

/-! ## A text cut through a character -/

namespace CutThrough

open ContentKey

/-- 128 bytes, with a character of two bytes across the 64th. -/
def text : String :=
  String.ofList (List.replicate 63 'a' ++ 'é' :: List.replicate 63 'a')

def chunk : Object ContentKey := Object.string text

def list : Object ContentKey := Object.list [chunk.id]

/-- A control tree with the list as the members of an epoch. -/
def sections : Sections ContentKey
  | .members => (∅ : BTreeMap String ContentKey).insert "e" list.id
  | _ => ∅

def tree : ContentKey × ObjectStore ContentKey :=
  Sections.write (AddressedMap.empty.putAll [chunk, list]) sections

def keyOfBytes (_ : Bytes) : ContentKey := list.id

end CutThrough

open CutThrough in
set_option maxRecDepth 16384 in
theorem read_panics_on_cut_text :
    Panics (loadIds keyOfBytes tree.2 list.id) ∧
      Panics (read keyOfBytes tree.2 LateYear.namesCodec tree.1) := by
  decide

/-! ## Without a panic -/

/-- The codec reads the texts of ids that don't make the reader panic as the
reader does. -/
def ReadsIds (ofBytes : Bytes → Id) (codec : ControlCodec Id) : Prop :=
  ∀ chunkId hex, ¬ Panics (textIds ofBytes chunkId hex) →
    textIds ofBytes chunkId hex =
      (codec.ids hex).elim (badChunk chunkId) Except.ok

section Follows

variable {ofBytes store codec}
  (h : ReadsIds ofBytes codec.toControlCodec)

include h

theorem loadChunk_follows (chunkId : Id) :
    Follows (loadChunk ofBytes store chunkId)
      (Control.loadChunk codec.toControlCodec store chunkId) := by
  rcases loadChunk_cases ofBytes store chunkId with ⟨hex, hget, heq⟩ |
    ⟨hno, heq⟩
  · by_cases hpanics : Panics (textIds ofBytes chunkId hex)
    · exact Or.inl (heq ▸ hpanics)
    · apply Or.inr
      rw [heq, h chunkId hex hpanics, Control.loadChunk, hget]
      dsimp only
      cases codec.ids hex <;> rfl
  · apply Or.inr
    rw [heq, Control.loadChunk]
    split
    next hex hget => exact absurd hget (hno hex)
    next => rfl

theorem loadIds_follows (id : Id) :
    Follows (loadIds ofBytes store id)
      (Control.loadIds codec.toControlCodec store id) := by
  apply (follows_lift _).bind
  intro o
  cases o with
  | atom a => exact follows_error _
  | node n =>
      cases n with
      | map m => exact follows_error _
      | list l =>
          exact (Follows.mapM (loadChunk_follows h) l).bind fun _ =>
            follows_ok _
      | set l => exact follows_error _

theorem loadEpoch_follows (id : Id) :
    Follows (loadEpoch ofBytes store codec id)
      (loadEpochState codec store id) := by
  apply (follows_lift _).bind
  intro doc
  apply (follows_lift _).bind
  intro record
  apply (follows_lift _).bind
  intro epoch
  apply (follows_lift _).bind
  intro list
  exact (loadIds_follows h list).bind fun _ => follows_ok _

theorem loadMembers_follows (id : Id) :
    Follows (loadMembers ofBytes store id)
      (Control.loadMembers codec store id) :=
  (loadIds_follows h id).bind fun _ => follows_ok _

omit h in
omit [Digest Id] in
theorem readSection_follows {β : Type} {load : Id → Calls (ControlError Id) β}
    {load' : Id → Except (ControlError Id) β}
    (hload : ∀ id, Follows (load id) (load' id))
    (entries : BTreeMap String Id) :
    Follows (readSection load entries)
      (Control.readSection load' entries) := by
  refine (Follows.mapM (fun e => ?_) _).bind fun _ => follows_ok _
  exact (hload e.2).bind fun _ => follows_ok _

/-- A read that does not panic reads what is there. -/
theorem read_follows (root : Id) :
    Follows (read ofBytes store codec root)
      (Control.read codec store root) := by
  apply (follows_lift _).bind
  intro sections
  apply (readSection_follows (fun _ => follows_lift _) _).bind
  intro taints
  apply (readSection_follows (fun _ => follows_lift _) _).bind
  intro reminders
  apply (readSection_follows (loadEpoch_follows h) _).bind
  intro epochs
  apply (readSection_follows (loadMembers_follows h) _).bind
  intro members
  exact follows_ok _

end Follows

end Untrusted

end Control

end AgentStateGraph
