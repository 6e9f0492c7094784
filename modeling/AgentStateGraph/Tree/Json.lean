import AgentStateGraph.Storage.Objects

/-!
# JSON values as state trees

A JSON value is stored as the objects of its subtree, each child before its
parent.
-/

namespace AgentStateGraph

variable {Id : Type} [Digest Id]

/-- `serde_json::Number`. -/
inductive Number where
  | posInt (u : UInt64)
  | negInt (i : Int64)
  | float (f : F64)
deriving DecidableEq

/-- `serde_json::Value`; an object lists its entries in key order. -/
inductive Json where
  | null
  | bool (b : Bool)
  | number (n : Number)
  | string (s : String)
  | array (items : List Json)
  | object (entries : List (String × Json))

/-- The atom for a JSON number: `Int` when it fits, `UInt` above, `Float`
otherwise. -/
def Atom.ofJsonNumber : Number → Atom
  | .posInt u => if u.toNat < 2 ^ 63 then .int (Int64.ofNat u.toNat) else .uint u
  | .negInt i => .int i
  | .float f => .float f

mutual

/-- A value as an object, with every object below it. -/
def jsonToObjects : Json → Object Id × List (Object Id)
  | .null => (.atom .null, [])
  | .bool b => (.atom (.bool b), [])
  | .number n => (.atom (Atom.ofJsonNumber n), [])
  | .string s => (Object.string s, [])
  | .array items =>
      let (ids, below) := jsonItemsToObjects items
      (Object.list ids, below)
  | .object entries =>
      let (ids, below) := jsonEntriesToObjects entries
      (Object.map (ids.foldl (fun m e => m.insert e.1 e.2) ∅), below)

def jsonItemsToObjects : List Json → List Id × List (Object Id)
  | [] => ([], [])
  | item :: items =>
      let (o, below) := jsonToObjects item
      let (ids, rest) := jsonItemsToObjects items
      (o.id :: ids, below ++ o :: rest)

def jsonEntriesToObjects : List (String × Json) →
    List (String × Id) × List (Object Id)
  | [] => ([], [])
  | (key, value) :: entries =>
      let (o, below) := jsonToObjects value
      let (ids, rest) := jsonEntriesToObjects entries
      ((key, o.id) :: ids, below ++ o :: rest)

end

/-- Store a JSON value; the result is the id of its root. -/
def jsonToTree (store : ObjectStore Id) (value : Json) : Id × ObjectStore Id :=
  let (root, below) := jsonToObjects value
  (root.id, store.putAll (below ++ [root]))

theorem le_jsonToTree (store : ObjectStore Id) (value : Json) :
    store ≤ (jsonToTree store value).2 :=
  ObjectStore.le_putAll store _

theorem get_jsonToTree (store : ObjectStore Id) (value : Json) :
    (jsonToTree store value).2.get (jsonToTree store value).1 =
      some (jsonToObjects value).1 :=
  AddressedMap.get_putAll_of_mem Object.id_injective store (by simp)

/-- Every id that some objects point at is that of one of `below`. -/
def PointInto (os below : List (Object Id)) : Prop :=
  ∀ o ∈ os, ∀ c ∈ o.childIds, ∃ o' ∈ below, o'.id = c

theorem PointInto.mono {os below more : List (Object Id)}
    (h : PointInto os below) (hsub : below ⊆ more) : PointInto os more := by
  intro o ho c hc
  obtain ⟨o', ho', hid⟩ := h o ho c hc
  exact ⟨o', hsub ho', hid⟩

theorem pointInto_append {os os' below : List (Object Id)}
    (h : PointInto os below) (h' : PointInto os' below) :
    PointInto (os ++ os') below := by
  intro o ho
  rcases List.mem_append.mp ho with ho | ho
  · exact h o ho
  · exact h' o ho

omit [Digest Id] in
/-- What a map made of a list of entries points at. -/
theorem mem_childIds_ofEntries {ids : List (String × Id)} {c : Id}
    (h : c ∈ (Object.map (ids.foldl (fun m e => m.insert e.1 e.2)
      (∅ : BTreeMap String Id))).childIds) : ∃ e ∈ ids, e.2 = c := by
  obtain ⟨key, hkey⟩ := Object.exists_getElem?_of_mem_childIds h
  have hfold : ∀ (l : List (String × Id)) (m : BTreeMap String Id),
      (l.foldl (fun m e => m.insert e.1 e.2) m)[key]? = some c →
      m[key]? = some c ∨ ∃ e ∈ l, e.2 = c := by
    intro l
    induction l with
    | nil => exact fun m hm => Or.inl hm
    | cons e l ih =>
        intro m hm
        rcases ih (m.insert e.1 e.2) hm with hin | ⟨e', he', hc⟩
        · rw [Std.ExtTreeMap.getElem?_insert] at hin
          split at hin
          · exact Or.inr ⟨e, by simp, by simpa using hin⟩
          · exact Or.inl hin
        · exact Or.inr ⟨e', List.mem_cons_of_mem _ he', hc⟩
  rcases hfold ids ∅ hkey with hempty | hmem
  · simp at hempty
  · exact hmem

mutual

theorem jsonToObjects_closed : ∀ value : Json,
    PointInto ((jsonToObjects value : Object Id × List (Object Id)).1 ::
      (jsonToObjects value).2) (jsonToObjects value).2
  | .null | .bool _ | .number _ | .string _ => by
      intro o ho
      simp only [jsonToObjects, List.mem_singleton] at ho
      subst ho
      simp [Object.childIds, Object.string]
  | .array items => by
      obtain ⟨hids, hbelow⟩ := jsonItemsToObjects_closed items
      intro o ho
      rcases List.mem_cons.mp ho with rfl | ho
      · exact hids
      · exact hbelow o ho
  | .object entries => by
      obtain ⟨hids, hbelow⟩ := jsonEntriesToObjects_closed entries
      intro o ho
      rcases List.mem_cons.mp ho with rfl | ho
      · intro c hc
        obtain ⟨e, he, rfl⟩ := mem_childIds_ofEntries hc
        exact hids e he
      · exact hbelow o ho

theorem jsonItemsToObjects_closed : ∀ items : List Json,
    (∀ c ∈ (jsonItemsToObjects items : List Id × List (Object Id)).1,
        ∃ o ∈ (jsonItemsToObjects items).2, o.id = c) ∧
      PointInto (jsonItemsToObjects items : List Id × List (Object Id)).2
        (jsonItemsToObjects items).2
  | [] => ⟨by simp [jsonItemsToObjects], by simp [jsonItemsToObjects, PointInto]⟩
  | item :: items => by
      have hfirst : PointInto
          ((jsonToObjects item : Object Id × List (Object Id)).1 ::
            (jsonToObjects item).2) _ := jsonToObjects_closed item
      obtain ⟨hids, hbelow⟩ := jsonItemsToObjects_closed items
      simp only [jsonItemsToObjects]
      constructor
      · intro c hc
        rcases List.mem_cons.mp hc with rfl | hc
        · exact ⟨_, by simp, rfl⟩
        · obtain ⟨o, ho, hid⟩ := hids c hc
          exact ⟨o, by simp [ho], hid⟩
      · apply pointInto_append
        · refine PointInto.mono ?_ (List.subset_append_left _ _)
          exact fun o ho => hfirst o (List.mem_cons_of_mem _ ho)
        · intro o ho
          rcases List.mem_cons.mp ho with rfl | ho
          · exact (hfirst.mono (List.subset_append_left _ _)) _ (by simp)
          · refine (hbelow.mono ?_) o ho
            intro x hx
            simp [hx]

theorem jsonEntriesToObjects_closed : ∀ entries : List (String × Json),
    (∀ e ∈ (jsonEntriesToObjects entries :
        List (String × Id) × List (Object Id)).1,
        ∃ o ∈ (jsonEntriesToObjects entries).2, o.id = e.2) ∧
      PointInto (jsonEntriesToObjects entries :
        List (String × Id) × List (Object Id)).2 (jsonEntriesToObjects entries).2
  | [] =>
      ⟨by simp [jsonEntriesToObjects], by simp [jsonEntriesToObjects, PointInto]⟩
  | (key, value) :: entries => by
      have hfirst : PointInto
          ((jsonToObjects value : Object Id × List (Object Id)).1 ::
            (jsonToObjects value).2) _ := jsonToObjects_closed value
      obtain ⟨hids, hbelow⟩ := jsonEntriesToObjects_closed entries
      simp only [jsonEntriesToObjects]
      constructor
      · intro e he
        rcases List.mem_cons.mp he with rfl | he
        · exact ⟨_, by simp, rfl⟩
        · obtain ⟨o, ho, hid⟩ := hids e he
          exact ⟨o, by simp [ho], hid⟩
      · apply pointInto_append
        · refine PointInto.mono ?_ (List.subset_append_left _ _)
          exact fun o ho => hfirst o (List.mem_cons_of_mem _ ho)
        · intro o ho
          rcases List.mem_cons.mp ho with rfl | ho
          · exact (hfirst.mono (List.subset_append_left _ _)) _ (by simp)
          · refine (hbelow.mono ?_) o ho
            intro x hx
            simp [hx]

end

theorem complete_jsonToTree (store : ObjectStore Id) (value : Json) :
    ObjectStore.Complete (jsonToTree store value).2
      (jsonToTree store value).1 := by
  have hclosed : PointInto
      ((jsonToObjects value : Object Id × List (Object Id)).1 ::
        (jsonToObjects value).2) _ := jsonToObjects_closed value
  refine @ObjectStore.complete_of_stored Id _ _
    ((jsonToObjects value).2 ++ [(jsonToObjects value).1])
    (fun o ho => AddressedMap.get_putAll_of_mem Object.id_injective store ho) ?_
    (jsonToObjects value).1 (by simp)
  intro o ho c hc
  have hmem : o ∈ (jsonToObjects value).1 :: (jsonToObjects value).2 := by
    rcases List.mem_append.mp ho with ho | ho
    · exact List.mem_cons_of_mem _ ho
    · simp [List.mem_singleton.mp ho]
  obtain ⟨o', ho', hid⟩ := hclosed o hmem c hc
  exact Or.inl ⟨o', List.mem_append_left _ ho', hid⟩

end AgentStateGraph
