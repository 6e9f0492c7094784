import AgentStateGraph.Core.ContentKey
import AgentStateGraph.Tree.Read

/-!
# Reading a stored value back

`treeToJson` inverts `jsonToTree` on the values that `serde_json` builds: a
negative number only as a signed one, finite floats, and the entries of an
object in key order, each key once.
-/

namespace AgentStateGraph

variable {Id : Type} [Digest Id]

/-- `PartialEq` of numbers: floats compare as IEEE values. -/
def Number.partialEq : Number → Number → Bool
  | .float x, .float y => x.eq y
  | a, b => a == b

def Number.isCanonical : Number → Bool
  | .posInt _ => true
  | .negInt i => i < 0
  | .float f => f.isFinite

mutual

/-- A value as `serde_json` builds it. -/
def Json.isCanonical : Json → Bool
  | .null | .bool _ | .string _ => true
  | .number n => n.isCanonical
  | .array items => Json.areCanonical items
  | .object entries =>
      decide ((entries.map Prod.fst).Pairwise (· < ·)) &&
        Json.entriesCanonical entries

def Json.areCanonical : List Json → Bool
  | [] => true
  | item :: items => item.isCanonical && Json.areCanonical items

def Json.entriesCanonical : List (String × Json) → Bool
  | [] => true
  | (_, value) :: entries => value.isCanonical && Json.entriesCanonical entries

end

theorem atomToJson_ofJsonNumber {n : Number} (h : n.isCanonical = true) :
    atomToJson (Atom.ofJsonNumber n) = .number n := by
  cases n with
  | posInt u =>
      simp only [Atom.ofJsonNumber]
      by_cases hu : u.toNat < 2 ^ 63
      · have hnn : ¬ Int64.ofNat u.toNat < 0 := by
          rw [Int64.lt_iff_toInt_lt, Int64.toInt_ofNat_of_lt (by simpa using hu)]
          simp
        have hback : (Int64.ofNat u.toNat).toUInt64 = u := by
          apply UInt64.toNat_inj.mp
          simp
        rw [if_pos hu]
        simp only [atomToJson, if_neg hnn, hback]
      · rw [if_neg hu]
        simp only [atomToJson]
  | negInt i =>
      have hi : i < 0 := by simpa [Number.isCanonical] using h
      simp only [Atom.ofJsonNumber, atomToJson, if_pos hi]
  | float f =>
      have hf : f.isFinite = true := h
      simp only [Atom.ofJsonNumber, atomToJson, if_pos hf]

theorem map_fst_jsonEntries (entries : List (String × Json)) :
    (jsonEntriesToObjects entries :
      List (String × Id) × List (Object Id)).1.map Prod.fst =
      entries.map Prod.fst := by
  induction entries with
  | nil => rfl
  | cons e entries ih => simp only [jsonEntriesToObjects, List.map_cons, ih]

omit [Digest Id] in
theorem foldl_insert_eq_ofList (ids : List (String × Id)) :
    (ids.foldl (fun m e => m.insert e.1 e.2) (∅ : BTreeMap String Id)).toList =
      (Std.ExtTreeMap.ofList ids compare).toList := by
  rw [Std.ExtTreeMap.ofList_eq_insertMany_empty,
    Std.ExtTreeMap.insertMany_list_eq_foldl]

/-- The objects of some values are all stored. -/
def Stored (store : ObjectStore Id) (os : List (Object Id)) : Prop :=
  ∀ o ∈ os, store.get o.id = some o

mutual

theorem toJson_jsonToObjects : ∀ (value : Json) {store : ObjectStore Id}
    {fuel : ℕ}, value.isCanonical = true →
    Stored store (jsonToObjects value : Object Id × List (Object Id)).2 →
    Digest.rank (jsonToObjects value : Object Id × List (Object Id)).1.id < fuel →
    toJson store fuel (jsonToObjects value).1 = .ok value
  | .null, store, fuel + 1, _, _, _ => rfl
  | .bool _, store, fuel + 1, _, _, _ => rfl
  | .string _, store, fuel + 1, _, _, _ => rfl
  | .number n, store, fuel + 1, hc, _, _ => by
      have hn : n.isCanonical = true := hc
      simp only [jsonToObjects, toJson, atomToJson_ofJsonNumber hn]
  | .array items, store, fuel + 1, hc, hs, hf => by
      have hitems : itemsToJson store (toJson store fuel)
          (jsonItemsToObjects items).1 = .ok items := by
        apply itemsToJson_jsonItems items hc hs
        intro id hid
        have hlt := Object.rank_lt_of_mem_childIds
          (o := (jsonToObjects (.array items) : Object Id × _).1) hid
        omega
      simp only [jsonToObjects, toJson, Object.list, hitems, Except.ok_bind]
  | .object entries, store, fuel + 1, hc, hs, hf => by
      simp only [Json.isCanonical, Bool.and_eq_true, decide_eq_true_eq] at hc
      obtain ⟨hkeys, hvalues⟩ := hc
      have hlist : ((jsonEntriesToObjects entries : List (String × Id) × _).1.foldl
          (fun m e => m.insert e.1 e.2) (∅ : BTreeMap String Id)).toList =
          (jsonEntriesToObjects entries).1 := by
        rw [foldl_insert_eq_ofList, KeyedMap.toList_ofList]
        rwa [map_fst_jsonEntries]
      have hentries : entriesToJson store (toJson store fuel)
          (jsonEntriesToObjects entries).1 = .ok entries := by
        apply entriesToJson_jsonEntries entries hvalues hs
        intro e he
        have hmem : e.2 ∈ (jsonToObjects (.object entries) :
            Object Id × _).1.childIds := by
          simp only [jsonToObjects, Object.map, Object.childIds]
          rw [hlist]
          exact List.mem_map_of_mem he
        have hlt := Object.rank_lt_of_mem_childIds hmem
        omega
      simp only [jsonToObjects, toJson, Object.map, hlist, hentries,
        Except.ok_bind]

theorem itemsToJson_jsonItems : ∀ (items : List Json) {store : ObjectStore Id}
    {fuel : ℕ}, Json.areCanonical items = true →
    Stored store (jsonItemsToObjects items : List Id × List (Object Id)).2 →
    (∀ id ∈ (jsonItemsToObjects items : List Id × List (Object Id)).1,
      Digest.rank id < fuel) →
    itemsToJson store (toJson store fuel) (jsonItemsToObjects items).1 =
      .ok items
  | [], _, _, _, _, _ => rfl
  | item :: items, store, fuel, hc, hs, hf => by
      simp only [Json.areCanonical, Bool.and_eq_true] at hc
      simp only [jsonItemsToObjects] at hs hf ⊢
      have hget : store.require (jsonToObjects item : Object Id × _).1.id =
          .ok (jsonToObjects item).1 :=
        require_eq_ok_iff.mpr (hs _ (by simp))
      have hitem := toJson_jsonToObjects item hc.1
        (fun o ho => hs o (by simp [ho])) (hf _ (by simp))
      have hitems := itemsToJson_jsonItems items hc.2
        (fun o ho => hs o (by simp [ho])) (fun id hid => hf id (by simp [hid]))
      simp only [itemsToJson, List.mapM_cons, hget, Except.ok_bind, hitem] at hitems ⊢
      rw [hitems]
      rfl

theorem entriesToJson_jsonEntries : ∀ (entries : List (String × Json))
    {store : ObjectStore Id} {fuel : ℕ},
    Json.entriesCanonical entries = true →
    Stored store
      (jsonEntriesToObjects entries : List (String × Id) × List (Object Id)).2 →
    (∀ e ∈ (jsonEntriesToObjects entries :
        List (String × Id) × List (Object Id)).1, Digest.rank e.2 < fuel) →
    entriesToJson store (toJson store fuel) (jsonEntriesToObjects entries).1 =
      .ok entries
  | [], _, _, _, _, _ => rfl
  | (key, value) :: entries, store, fuel, hc, hs, hf => by
      simp only [Json.entriesCanonical, Bool.and_eq_true] at hc
      simp only [jsonEntriesToObjects] at hs hf ⊢
      have hget : store.require (jsonToObjects value : Object Id × _).1.id =
          .ok (jsonToObjects value).1 :=
        require_eq_ok_iff.mpr (hs _ (by simp))
      have hvalue := toJson_jsonToObjects value hc.1
        (fun o ho => hs o (by simp [ho])) (hf (key, _) List.mem_cons_self)
      have hentries := entriesToJson_jsonEntries entries hc.2
        (fun o ho => hs o (by simp [ho])) (fun e he => hf e (by simp [he]))
      simp only [entriesToJson, List.mapM_cons, hget, Except.ok_bind, hvalue] at hentries ⊢
      rw [hentries]
      rfl

end

theorem treeToJson_of_stored {store : ObjectStore Id} {value : Json}
    (hc : value.isCanonical = true)
    (hs : Stored store (jsonToObjects value).2) :
    treeToJson store (jsonToObjects value).1 = .ok value :=
  toJson_jsonToObjects value hc hs (Nat.lt_succ_self _)

theorem stored_jsonToTree (store : ObjectStore Id) (value : Json) :
    Stored (jsonToTree store value).2
      ((jsonToObjects value).2 ++ [(jsonToObjects value).1]) := by
  intro o ho
  exact AddressedMap.get_putAll_of_mem Object.id_injective store ho

/-! ## The other way round -/

/-- The atoms that JSON values become. -/
def Atom.isJson : Atom → Bool
  | .uint u => 2 ^ 63 ≤ u.toNat
  | .float f => f.isFinite
  | .bytes _ => false
  | .null | .bool _ | .int _ | .string _ => true

/-- The objects that JSON values become: no sets. -/
def Object.isJson : Object Id → Bool
  | .atom a => a.isJson
  | .node (.set _) => false
  | .node (.map _) | .node (.list _) => true

/-- The tree at `id` is stored, and of objects that JSON values become. -/
def JsonTree (store : ObjectStore Id) (id : Id) : Prop :=
  ∀ x, Worklist.Reaches store.children id x →
    ∃ o, store.get x = some o ∧ o.isJson = true

theorem JsonTree.child {store : ObjectStore Id} {id c : Id} {o : Object Id}
    (h : JsonTree store id) (hget : store.get id = some o)
    (hc : c ∈ o.childIds) : JsonTree store c := by
  intro x hx
  have hstep : c ∈ store.children id := by
    rwa [ObjectStore.children_of_get hget]
  exact h x ((Worklist.Reaches.single hstep).trans hx)

theorem jsonToObjects_atomToJson {a : Atom} (h : a.isJson = true) :
    (jsonToObjects (atomToJson a) : Object Id × List (Object Id)).1 =
      .atom a := by
  match a with
  | .null | .bool _ | .string _ => rfl
  | .int i =>
      by_cases hi : i < 0
      · simp only [atomToJson, if_pos hi, jsonToObjects, Atom.ofJsonNumber]
      · have hnn : 0 ≤ i.toInt := by
          rw [Int64.lt_iff_toInt_lt] at hi
          simpa using hi
        have hnat : (i.toUInt64.toNat : ℤ) = i.toInt := by
          have hcond := BitVec.toInt_eq_toNat_cond i.toBitVec
          have hint : i.toBitVec.toInt = i.toInt := rfl
          have hsame : i.toBitVec.toNat = i.toUInt64.toNat := rfl
          have hbound := i.toBitVec.isLt
          omega
        have hlt : i.toUInt64.toNat < 2 ^ 63 := by
          have hmax := Int64.toInt_lt i
          omega
        have hback : Int64.ofNat i.toUInt64.toNat = i := by
          apply Int64.toInt_inj.mp
          rw [Int64.toInt_ofNat_of_lt (by simpa using hlt), hnat]
        simp only [atomToJson, if_neg hi, jsonToObjects, Atom.ofJsonNumber,
          if_pos hlt, hback]
  | .uint u =>
      have hu : ¬ u.toNat < 2 ^ 63 := by
        simpa [Atom.isJson] using h
      simp only [atomToJson, jsonToObjects, Atom.ofJsonNumber, if_neg hu]
  | .float f =>
      have hf : f.isFinite = true := h
      simp only [atomToJson, if_pos hf, jsonToObjects, Atom.ofJsonNumber]
  | .bytes b => exact absurd h (by simp [Atom.isJson])

theorem jsonItems_map {f : Id → Json} {ids : List Id}
    (h : ∀ id ∈ ids,
      (jsonToObjects (f id) : Object Id × List (Object Id)).1.id = id) :
    (jsonItemsToObjects (ids.map f) : List Id × _).1 = ids := by
  induction ids with
  | nil => rfl
  | cons id ids ih =>
      simp only [List.map_cons, jsonItemsToObjects, h id List.mem_cons_self,
        ih fun x hx => h x (List.mem_cons_of_mem _ hx)]

theorem jsonEntries_map {f : Id → Json} {entries : List (String × Id)}
    (h : ∀ e ∈ entries,
      (jsonToObjects (f e.2) : Object Id × List (Object Id)).1.id = e.2) :
    (jsonEntriesToObjects (entries.map fun e => (e.1, f e.2)) :
      List (String × Id) × _).1 = entries := by
  induction entries with
  | nil => rfl
  | cons e entries ih =>
      simp only [List.map_cons, jsonEntriesToObjects, h e List.mem_cons_self,
        ih fun x hx => h x (List.mem_cons_of_mem _ hx)]

theorem exists_jsonToObjects {store : ObjectStore Id} {fuel : ℕ} {id : Id}
    {o : Object Id} (h : JsonTree store id) (hget : store.get id = some o)
    (hfuel : Digest.rank id < fuel) :
    ∃ value, toJson store fuel o = .ok value ∧
      (jsonToObjects value : Object Id × List (Object Id)).1 = o := by
  induction fuel generalizing id o with
  | zero => exact absurd hfuel (Nat.not_lt_zero _)
  | succ n ih =>
      have hjson : o.isJson = true := by
        obtain ⟨o', ho', hjson⟩ := h id (Worklist.Reaches.refl _ id)
        rwa [Option.some.inj (hget.symm.trans ho')]
      have hchild : ∀ c ∈ o.childIds, ∃ value : Json,
          (∃ child, store.require c = .ok child ∧
            toJson store n child = .ok value) ∧
          (jsonToObjects value : Object Id × List (Object Id)).1.id = c := by
        intro c hc
        have hsub := h.child hget hc
        obtain ⟨child, hchild, -⟩ := hsub c (Worklist.Reaches.refl _ c)
        have hrank := ObjectStore.rank_lt_of_get hget hc
        obtain ⟨value, hvalue, hroot⟩ := ih hsub hchild (by omega)
        refine ⟨value, ⟨child, require_eq_ok_iff.mpr hchild, hvalue⟩, ?_⟩
        rw [hroot, ObjectStore.id_eq_of_get hchild]
      have : Nonempty Json := ⟨.null⟩
      choose! readAt hread hroot using hchild
      match o with
      | .atom a =>
          exact ⟨atomToJson a, rfl, jsonToObjects_atomToJson hjson⟩
      | .node (.set items) => exact absurd hjson (by simp [Object.isJson])
      | .node (.list items) =>
          have hitems : itemsToJson store (toJson store n) items =
              .ok (items.map readAt) := by
            refine Except.mapM_eq_ok fun c hc => ?_
            obtain ⟨child, hrequire, hvalue⟩ := hread c hc
            rw [hrequire, Except.ok_bind, hvalue]
          refine ⟨.array (items.map readAt), ?_, ?_⟩
          · simp only [toJson, hitems, Except.ok_bind]
          · have hback : (jsonItemsToObjects (items.map readAt) :
                List Id × _).1 = items := jsonItems_map hroot
            simp only [jsonToObjects, hback, Object.list]
      | .node (.map entries) =>
          have hmem : ∀ e ∈ entries.toList,
              e.2 ∈ (Object.node (.map entries) : Object Id).childIds :=
            fun e he => List.mem_map_of_mem he
          have hentries : entriesToJson store (toJson store n) entries.toList =
              .ok (entries.toList.map fun e => (e.1, readAt e.2)) := by
            refine Except.mapM_eq_ok fun e he => ?_
            obtain ⟨child, hrequire, hvalue⟩ := hread e.2 (hmem e he)
            rw [hrequire, Except.ok_bind, hvalue, Except.ok_bind]
          refine ⟨.object (entries.toList.map fun e => (e.1, readAt e.2)),
            ?_, ?_⟩
          · simp only [toJson, hentries, Except.ok_bind]
          · have hback := jsonEntries_map fun e he => hroot e.2 (hmem e he)
            have hmap : entries.toList.foldl (fun m e => m.insert e.1 e.2)
                (∅ : BTreeMap String Id) = entries := by
              rw [← Std.ExtTreeMap.insertMany_list_eq_foldl,
                ← Std.ExtTreeMap.ofList_eq_insertMany_empty,
                KeyedMap.ofList_toList]
            simp only [jsonToObjects, hback, hmap, Object.map]

theorem isJson_ofJsonNumber {n : Number} (h : n.isCanonical = true) :
    (Atom.ofJsonNumber n).isJson = true := by
  match n with
  | .posInt u =>
      by_cases hu : u.toNat < 2 ^ 63
      · simp only [Atom.ofJsonNumber, if_pos hu, Atom.isJson]
      · simpa only [Atom.ofJsonNumber, if_neg hu, Atom.isJson,
          decide_eq_true_eq] using Nat.le_of_not_lt hu
  | .negInt i => rfl
  | .float f => exact h

mutual

theorem jsonToObjects_isJson : ∀ value : Json, value.isCanonical = true →
    ∀ o ∈ (jsonToObjects value : Object Id × List (Object Id)).1 ::
      (jsonToObjects value).2, o.isJson = true
  | .null, _ | .bool _, _ | .string _, _ => by
      intro o ho
      rw [List.mem_singleton.mp ho]
      rfl
  | .number n, h => by
      intro o ho
      rw [List.mem_singleton.mp ho]
      exact isJson_ofJsonNumber h
  | .array items, h => by
      intro o ho
      rcases List.mem_cons.mp ho with rfl | ho
      · rfl
      · exact jsonItems_isJson items h o ho
  | .object entries, h => by
      intro o ho
      rcases List.mem_cons.mp ho with rfl | ho
      · rfl
      · simp only [Json.isCanonical, Bool.and_eq_true] at h
        exact jsonEntries_isJson entries h.2 o ho

theorem jsonItems_isJson : ∀ items : List Json,
    Json.areCanonical items = true →
    ∀ o ∈ (jsonItemsToObjects items : List Id × List (Object Id)).2,
      o.isJson = true
  | [], _ => by simp [jsonItemsToObjects]
  | item :: items, h => by
      simp only [Json.areCanonical, Bool.and_eq_true] at h
      intro o ho
      simp only [jsonItemsToObjects] at ho
      rcases List.mem_append.mp ho with ho | ho
      · exact jsonToObjects_isJson item h.1 o (List.mem_cons_of_mem _ ho)
      · rcases List.mem_cons.mp ho with rfl | ho
        · exact jsonToObjects_isJson item h.1 _ List.mem_cons_self
        · exact jsonItems_isJson items h.2 o ho

theorem jsonEntries_isJson : ∀ entries : List (String × Json),
    Json.entriesCanonical entries = true →
    ∀ o ∈ (jsonEntriesToObjects entries :
      List (String × Id) × List (Object Id)).2, o.isJson = true
  | [], _ => by simp [jsonEntriesToObjects]
  | (key, value) :: entries, h => by
      simp only [Json.entriesCanonical, Bool.and_eq_true] at h
      intro o ho
      simp only [jsonEntriesToObjects] at ho
      rcases List.mem_append.mp ho with ho | ho
      · exact jsonToObjects_isJson value h.1 o (List.mem_cons_of_mem _ ho)
      · rcases List.mem_cons.mp ho with rfl | ho
        · exact jsonToObjects_isJson value h.1 _ List.mem_cons_self
        · exact jsonEntries_isJson entries h.2 o ho

end

theorem jsonTree_jsonToTree (store : ObjectStore Id) {value : Json}
    (h : value.isCanonical = true) :
    JsonTree (jsonToTree store value).2 (jsonToTree store value).1 := by
  have hobjects : ∀ o ∈ (jsonToObjects value).2 ++ [(jsonToObjects value).1],
      (jsonToTree store value).2.get o.id = some o ∧ o.isJson = true := by
    intro o ho
    refine ⟨stored_jsonToTree store value o ho, ?_⟩
    refine jsonToObjects_isJson value h o ?_
    rcases List.mem_append.mp ho with ho | ho
    · exact List.mem_cons_of_mem _ ho
    · rw [List.mem_singleton.mp ho]
      exact List.mem_cons_self
  intro x hx
  obtain ⟨o, ho, rfl⟩ : ∃ o ∈ (jsonToObjects value).2 ++
      [(jsonToObjects value).1], o.id = x := by
    refine hx.mem_of_closed (P := fun x => ∃ o ∈ (jsonToObjects value).2 ++
      [(jsonToObjects value).1], o.id = x) ?_ ⟨_, by simp, rfl⟩
    rintro y ⟨o, ho, rfl⟩ c hc
    rw [ObjectStore.children_of_get (hobjects o ho).1] at hc
    obtain ⟨o', ho', hid⟩ := jsonToObjects_closed value o (by
      rcases List.mem_append.mp ho with ho | ho
      · exact List.mem_cons_of_mem _ ho
      · rw [List.mem_singleton.mp ho]
        exact List.mem_cons_self) c hc
    exact ⟨o', List.mem_append_left _ ho', hid⟩
  exact ⟨o, hobjects o ho⟩

/-- JSON values survive the store, trees of JSON objects survive being read as
JSON, and the root of a value is its own alone. -/
theorem json_tree_round_trip (store : ObjectStore Id) :
    (∀ value : Json, value.isCanonical = true →
      ∃ o, (jsonToTree store value).2.get (jsonToTree store value).1 = some o ∧
        treeToJson (jsonToTree store value).2 o = .ok value) ∧
      (∀ r, JsonTree store r → ∃ o value, store.get r = some o ∧
        treeToJson store o = .ok value ∧
        ∀ store' : ObjectStore Id, (jsonToTree store' value).1 = r) ∧
      (∀ value value' : Json, value.isCanonical = true →
        value'.isCanonical = true → ∀ store' : ObjectStore Id,
        ((jsonToTree store value).1 = (jsonToTree store' value').1 ↔
          value = value')) := by
  have hread : ∀ value : Json, value.isCanonical = true →
      treeToJson (jsonToTree store value).2
        (jsonToObjects value).1 = .ok value := by
    intro value hc
    refine treeToJson_of_stored hc fun o ho => ?_
    exact stored_jsonToTree store value o (List.mem_append_left _ ho)
  refine ⟨fun value hc => ⟨_, get_jsonToTree store value, hread value hc⟩,
    ?_, ?_⟩
  · intro r h
    obtain ⟨o, hget, -⟩ := h r (Worklist.Reaches.refl _ r)
    have hid := ObjectStore.id_eq_of_get hget
    have hfuel : Digest.rank r < Digest.rank o.id + 1 := by
      rw [hid]
      omega
    obtain ⟨value, hvalue, hroot⟩ := exists_jsonToObjects h hget hfuel
    refine ⟨o, value, hget, hvalue, fun store' => ?_⟩
    change (jsonToObjects value : Object Id × _).1.id = r
    rw [hroot, hid]
  · intro value value' hc hc' store'
    constructor
    · intro hids
      have hroots : (jsonToObjects value : Object Id × _).1 =
          (jsonToObjects value').1 := Object.id_injective hids
      -- One store that holds the objects of both values reads both.
      have hle := le_jsonToTree (jsonToTree store value).2 value'
      have hfirst : treeToJson (jsonToTree (jsonToTree store value).2 value').2
          (jsonToObjects value).1 = .ok value := by
        refine treeToJson_of_stored hc fun o ho => hle _ _ ?_
        exact stored_jsonToTree store value o (List.mem_append_left _ ho)
      have hsecond : treeToJson
          (jsonToTree (jsonToTree store value).2 value').2
          (jsonToObjects value').1 = .ok value' := by
        refine treeToJson_of_stored hc' fun o ho => ?_
        exact stored_jsonToTree _ value' o (List.mem_append_left _ ho)
      rw [hroots, hsecond] at hfirst
      exact (Except.ok.inj hfirst).symm
    · rintro rfl
      rfl

open ContentKey in
theorem json_tree_round_trip_of_list :
    ∃ (r : ContentKey) (value : Json) (store : ObjectStore ContentKey),
      (∃ o, (jsonToTree store value).2.get (jsonToTree store value).1 =
          some o ∧ treeToJson (jsonToTree store value).2 o = .ok value) ∧
      (∃ o value', store.get r = some o ∧ treeToJson store o = .ok value' ∧
        ∀ store' : ObjectStore ContentKey, (jsonToTree store' value').1 = r) ∧
      ((jsonToTree store value).1 = (jsonToTree store value).1 ↔
        value = value) := by
  have hvalue : (Json.array [.number (.posInt 5), .null]).isCanonical = true :=
    rfl
  have htree := @jsonTree_jsonToTree ContentKey _ AddressedMap.empty _ hvalue
  exact ⟨_, _, _, (json_tree_round_trip _).1 _ hvalue,
    (json_tree_round_trip _).2.1 _ htree,
    (json_tree_round_trip _).2.2 _ _ hvalue hvalue _⟩

namespace OtherAtoms

/-- An unsigned atom that fits the signed ones. -/
def small : Object ContentKey := .atom (.uint 5)

def notANumber : Object ContentKey := .atom (.float ⟨0x7FF8000000000000⟩)

end OtherAtoms

open OtherAtoms in
set_option maxRecDepth 16384 in
/-- Two stored atoms that no JSON value becomes, and two zeros that are equal
as numbers. -/
theorem json_tree_round_trip_fails :
    (∀ o ∈ [small, notANumber], ∃ value,
      (AddressedMap.empty.put o : ObjectStore ContentKey).get o.id = some o ∧
        treeToJson (AddressedMap.empty.put o) o = .ok value ∧
        (jsonToTree (AddressedMap.empty.put o) value).1 ≠ o.id) ∧
      Number.partialEq (.float F64.zero) (.float F64.negZero) = true ∧
      (jsonToTree (AddressedMap.empty : ObjectStore ContentKey)
          (.number (.float F64.zero))).1 ≠
        (jsonToTree AddressedMap.empty (.number (.float F64.negZero))).1 := by
  refine ⟨?_, rfl, by decide⟩
  intro o ho
  rcases List.mem_cons.mp ho with rfl | ho
  · exact ⟨.number (.posInt 5), AddressedMap.get_put_self _ _, rfl, by decide⟩
  · rw [List.mem_singleton.mp ho]
    exact ⟨.null, AddressedMap.get_put_self _ _, rfl, by decide⟩

end AgentStateGraph
