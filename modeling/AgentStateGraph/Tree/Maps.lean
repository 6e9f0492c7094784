import AgentStateGraph.Tree.Values

/-!
# Maps and documents at paths

A held object is a map of its fields.  What a read finds, or finds to be
missing, a larger store has too; a document that reads at a path reads there
until something is written to the path, above it or below it.
-/

namespace AgentStateGraph

variable {Id : Type} [Digest Id] {s t : ObjectStore Id} {root newRoot : Id}

/-! ## Maps -/

/-- A map stands at a path. -/
def MapAt (objects : ObjectStore Id) (root : Id) (path : List PathComponent)
    (entries : BTreeMap String Id) : Prop :=
  ∃ x, idAt objects root path = some x ∧
    objects.get x = some (.node (.map entries))

theorem idAt_append (objects : ObjectStore Id) (root : Id)
    (path rest : List PathComponent) :
    idAt objects root (path ++ rest) =
      lookupAt objects (idAt objects root path) rest := by
  rw [idAt_eq_lookupAt, lookupAt_append, idAt_eq_lookupAt]

section

variable {path : List PathComponent} {o : Object Id} {q : String}
  {fields : List (String × Json)}

theorem idAt_of_le (hle : s ≤ t) {x : Id} (h : idAt s root path = some x) :
    idAt t root path = some x := by
  rw [idAt_eq_lookupAt] at h ⊢
  exact lookupAt_of_le hle h

theorem MapAt.idAt_cons {entries : BTreeMap String Id}
    (h : MapAt s root path entries) (c : PathComponent)
    (rest : List PathComponent) :
    idAt s root (path ++ c :: rest) =
      lookupAt s (childIdAt (.node (.map entries) : Object Id) c) rest := by
  obtain ⟨x, hx, hget⟩ := h
  rw [idAt_append, hx, lookupAt_of_get hget]

theorem MapAt.idAt_key {entries : BTreeMap String Id}
    (h : MapAt s root path entries) (key : String) :
    idAt s root (path ++ [.key key]) = entries[key]? := by
  rw [h.idAt_cons]
  rfl

/-! ## Reads of a larger store -/

theorem treeGet_mono (hle : s ≤ t) {path : StatePath}
    (h : treeGet s root path = .ok o) : treeGet t root path = .ok o := by
  obtain ⟨x, hx, hget⟩ := treeGet_eq_ok_iff.mp h
  exact treeGet_eq_ok_iff.mpr ⟨x, idAt_of_le hle hx, hle _ _ hget⟩

theorem require_eq_error {id : Id} {e : TreeError Id}
    (h : s.require id = .error e) : e = .objectNotFound id := by
  unfold ObjectStore.require at h
  split at h
  next => contradiction
  next => exact (Except.error.inj h).symm

theorem toJson_eq_error {fuel : ℕ} {e : TreeError Id}
    (h : toJson s fuel o = .error e) : ∃ id, e = .objectNotFound id := by
  induction fuel generalizing o with
  | zero => contradiction
  | succ fuel ih =>
      have hitems : ∀ items,
          itemsToJson s (toJson s fuel) items = .error e →
            ∃ id, e = .objectNotFound id := by
        intro items herr
        obtain ⟨id, -, herr⟩ := Except.mapM_eq_error herr
        rcases Except.bind_eq_error_iff.mp herr with herr | ⟨c, -, herr⟩
        · exact ⟨id, require_eq_error herr⟩
        · exact ih herr
      match o with
      | .atom a => contradiction
      | .node (.list items) =>
          rcases Except.bind_eq_error_iff.mp h with herr | ⟨v, -, herr⟩
          · exact hitems items herr
          · contradiction
      | .node (.set items) =>
          rcases Except.bind_eq_error_iff.mp h with herr | ⟨v, -, herr⟩
          · exact hitems items herr
          · contradiction
      | .node (.map entries) =>
          rcases Except.bind_eq_error_iff.mp h with herr | ⟨v, -, herr⟩
          · obtain ⟨x, -, herr⟩ := Except.mapM_eq_error herr
            rcases Except.bind_eq_error_iff.mp herr with herr | ⟨c, -, herr⟩
            · exact ⟨x.2, require_eq_error herr⟩
            · rcases Except.bind_eq_error_iff.mp herr with herr | ⟨v, -, herr⟩
              · exact ih herr
              · contradiction
          · contradiction

theorem navigate_pathNotFound {path : StatePath} {c : PathComponent}
    (h : navigate s path o c = .error (.pathNotFound q)) :
    childIdAt o c = none ∧ navigate t path o c = .error (.pathNotFound q) := by
  have hrequire : ∀ x, s.require x ≠ .error (.pathNotFound q) := by
    intro x hx
    unfold ObjectStore.require at hx
    split at hx <;> simp at hx
  unfold navigate at h ⊢
  split at h
  next entries key =>
    cases hkey : entries[key]? with
    | some x =>
        rw [hkey] at h
        exact absurd h (hrequire x)
    | none =>
        rw [hkey] at h
        exact ⟨hkey, h⟩
  next items idx =>
    cases hidx : items[idx]? with
    | some x =>
        rw [hidx] at h
        exact absurd h (hrequire x)
    | none => simp [hidx] at h
  next => simp at h
  next => simp at h
  next => simp at h
  next => exact ⟨rfl, h⟩

/-- A path that is missing is missing in every larger store. -/
theorem foldlM_navigate_pathNotFound (hle : s ≤ t) {path : StatePath} {id : Id}
    {comps : List PathComponent} (hget : s.get id = some o)
    (h : comps.foldlM (navigate s path) o = .error (.pathNotFound q)) :
    lookupAt t (some id) comps = none ∧
      comps.foldlM (navigate t path) o = .error (.pathNotFound q) := by
  induction comps generalizing id o with
  | nil => simp [pure, Except.pure] at h
  | cons c comps ih =>
      rw [List.foldlM_cons] at h ⊢
      rw [lookupAt_of_get (hle _ _ hget)]
      rcases Except.bind_eq_error_iff.mp h with hnav | ⟨child, hnav, hrest⟩
      · obtain ⟨hnone, hnav'⟩ := navigate_pathNotFound (t := t) hnav
        rw [hnone, lookupAt_none, hnav']
        exact ⟨rfl, rfl⟩
      · obtain ⟨x, hx, hchild⟩ := navigate_eq_ok_iff.mp hnav
        have hnav' : navigate t path o c = .ok child :=
          navigate_eq_ok_iff.mpr ⟨x, hx, hle _ _ hchild⟩
        obtain ⟨hlookup, hfold⟩ := ih hchild hrest
        rw [hx, hnav', Except.ok_bind]
        exact ⟨hlookup, hfold⟩

theorem treeGet_pathNotFound (hle : s ≤ t) {path : StatePath}
    (h : treeGet s root path = .error (.pathNotFound q)) :
    idAt t root path.components = none ∧
      treeGet t root path = .error (.pathNotFound q) := by
  unfold treeGet at h ⊢
  rw [idAt_eq_lookupAt]
  cases hroot : s.get root with
  | none =>
      simp [ObjectStore.require, hroot] at h
  | some rootObj =>
      rw [require_eq_ok_iff.mpr hroot, Except.ok_bind] at h
      rw [require_eq_ok_iff.mpr (hle _ _ hroot), Except.ok_bind]
      exact foldlM_navigate_pathNotFound hle hroot h

theorem collectPaths_mono (hle : s ≤ t) {levels : ℕ} {current : String}
    {paths paths' : List String}
    (h : collectPaths s levels o current paths = .ok paths') :
    collectPaths t levels o current paths = .ok paths' := by
  induction levels generalizing o current paths paths' with
  | zero => exact h
  | succ levels ih =>
      have hchildren : ∀ children,
          collectChildren s (collectPaths s levels) current children paths =
            .ok paths' →
          collectChildren t (collectPaths t levels) current children paths =
            .ok paths' := by
        intro children hwalk
        refine Except.foldlM_mono ?_ hwalk
        intro acc e _ acc' hstep
        exact Except.bind_mono (fun c hc => require_mono hle hc)
          (fun c hc => ih hc) hstep
      simp only [collectPaths] at h ⊢
      split at h
      next hfull => rwa [if_pos hfull]
      next hfull =>
        rw [if_neg hfull]
        cases o with
        | atom a => exact h
        | node n =>
            cases n with
            | list items => exact hchildren _ h
            | set items => exact hchildren _ h
            | map entries =>
                dsimp only at h ⊢
                split at h
                next hempty => rwa [if_pos hempty]
                next hempty =>
                  rw [if_neg hempty]
                  exact hchildren _ h

theorem treeListPaths_mono (hle : s ≤ t) {pre : String} {maxDepth : ℕ}
    {paths : List String} (h : treeListPaths s root pre maxDepth = .ok paths) :
    treeListPaths t root pre maxDepth = .ok paths := by
  unfold treeListPaths at h ⊢
  refine Except.bind_mono (fun c hc => require_mono hle hc) ?_ h
  intro rootObj h
  dsimp only at h ⊢
  split at h
  next hpre =>
    rw [if_pos hpre]
    exact Except.bind_mono (fun o ho => collectPaths_mono hle ho)
      (fun _ hr => hr) h
  next hpre =>
    rw [if_neg hpre]
    refine Except.bind_mono (fun _ hp => hp) ?_ h
    intro path hpath
    refine Except.bind_mono (fun o ho => treeGet_mono hle ho) ?_ hpath
    intro o ho
    exact Except.bind_mono (fun _ hr => collectPaths_mono hle hr)
      (fun _ hr => hr) ho

/-! ## Objects as maps -/

theorem mem_jsonEntries {fields : List (String × Json)} {k : String} {v : Json}
    (h : (k, v) ∈ fields) :
    (k, (jsonToObjects v : Object Id × _).1.id) ∈
        (jsonEntriesToObjects fields : List (String × Id) × _).1 ∧
      ∀ o ∈ (jsonToObjects v : Object Id × _).2 ++ [(jsonToObjects v).1],
        o ∈ (jsonEntriesToObjects fields : _ × List (Object Id)).2 := by
  induction fields with
  | nil => simp at h
  | cons e fields ih =>
      obtain ⟨l, w⟩ := e
      simp only [jsonEntriesToObjects]
      rcases List.mem_cons.mp h with heq | h
      · obtain ⟨rfl, rfl⟩ := Prod.mk.inj heq
        refine ⟨by simp, ?_⟩
        intro o ho
        rcases List.mem_append.mp ho with ho | ho
        · simp [ho]
        · simp [List.mem_singleton.mp ho]
      · obtain ⟨hid, hbelow⟩ := ih h
        refine ⟨by simp [hid], ?_⟩
        intro o ho
        simp [hbelow o ho]

theorem HoldsAt.mapAt (hc : (Json.object fields).isCanonical = true)
    (h : HoldsAt s root path (.object fields)) :
    ∃ entries, MapAt s root path entries ∧
      entries.toList = (jsonEntriesToObjects fields).1 := by
  simp only [Json.isCanonical, Bool.and_eq_true, decide_eq_true_eq] at hc
  refine ⟨_, ⟨_, h.id, h.stored _ (List.mem_append_right _ (by simp))⟩, ?_⟩
  rw [foldl_insert_eq_ofList, KeyedMap.toList_ofList]
  rw [map_fst_jsonEntries]
  exact hc.1

theorem HoldsAt.field (hc : (Json.object fields).isCanonical = true)
    (h : HoldsAt s root path (.object fields)) {k : String} {v : Json}
    (hv : (k, v) ∈ fields) : HoldsAt s root (path ++ [.key k]) v := by
  obtain ⟨entries, hmap, hlist⟩ := h.mapAt hc
  obtain ⟨hid, hbelow⟩ := @mem_jsonEntries Id _ _ _ _ hv
  rw [← hlist] at hid
  refine ⟨?_, ?_⟩
  · rw [hmap.idAt_key]
    exact Std.ExtTreeMap.mem_toList_iff_getElem?_eq_some.mp hid
  · intro o ho
    exact h.stored o (List.mem_append_left _ (hbelow o ho))

theorem HoldsAt.exists_field (rest : List PathComponent)
    (hc : (Json.object fields).isCanonical = true)
    (h : HoldsAt s root path (.object fields)) {k : String} {x : Id}
    (hx : idAt s root (path ++ .key k :: rest) = some x) :
    ∃ v, (k, v) ∈ fields := by
  obtain ⟨entries, hmap, hlist⟩ := h.mapAt hc
  rw [hmap.idAt_cons] at hx
  cases hk : entries[k]? with
  | none => simp [childIdAt, hk, lookupAt_none] at hx
  | some y =>
      have hmem := Std.ExtTreeMap.mem_toList_iff_getElem?_eq_some.mpr hk
      rw [hlist] at hmem
      have hkey := List.mem_map_of_mem (f := Prod.fst) hmem
      rw [map_fst_jsonEntries] at hkey
      obtain ⟨⟨_, v⟩, hv, rfl⟩ := List.mem_map.mp hkey
      exact ⟨v, hv⟩

theorem CompleteBelow.mono (hle : s ≤ t) (h : CompleteBelow s o) :
    CompleteBelow t o :=
  fun c hc => (h c hc).mono hle

end

/-! ## Documents -/

section ReadsAt

variable {path : List PathComponent} {value value' : Json}

theorem ReadsAt.mono (hle : s ≤ t) (h : ReadsAt s root path value) :
    ReadsAt t root path value := by
  obtain ⟨x, o, hx, ho, hjson⟩ := h
  exact ⟨x, o, idAt_of_le hle hx, hle _ _ ho, toJson_mono hle hjson⟩

theorem ReadsAt.unique (h : ReadsAt s root path value)
    (h' : ReadsAt s root path value') : value = value' := by
  obtain ⟨x, o, hx, ho, hjson⟩ := h
  obtain ⟨y, o', hy, ho', hjson'⟩ := h'
  obtain rfl : x = y := Option.some.inj (hx.symm.trans hy)
  obtain rfl : o = o' := Option.some.inj (ho.symm.trans ho')
  exact Except.ok.inj (hjson.symm.trans hjson')

theorem ReadsAt.of_idAt_eq (h : ReadsAt s root path value)
    (heq : idAt s newRoot path = idAt s root path) :
    ReadsAt s newRoot path value := by
  obtain ⟨x, o, hx, hrest⟩ := h
  exact ⟨x, o, heq.trans hx, hrest⟩

theorem complete_of_idAt (hroot : s.Complete root) {x : Id}
    (h : idAt s root path = some x) : s.Complete x := by
  rw [idAt_eq_lookupAt] at h
  induction path generalizing root with
  | nil =>
      rw [lookupAt_nil, Option.some.injEq] at h
      exact h ▸ hroot
  | cons c path ih =>
      obtain ⟨o, ho⟩ := hroot.exists_get
      rw [lookupAt_of_get ho] at h
      cases hc : childIdAt o c with
      | none => simp [hc, lookupAt_none] at h
      | some y =>
          rw [hc] at h
          exact ih (hroot.child ho (mem_childIds_of_childIdAt hc)) h

/-- A tree with no object missing reads in a larger store as it does. -/
theorem ReadsAt.of_complete (hroot : s.Complete root) (hle : s ≤ t)
    (h : ReadsAt t root path value) : ReadsAt s root path value := by
  obtain ⟨x, o, hx, ho, hjson⟩ := h
  have hidAt : idAt s root path = some x := by
    cases hs : idAt s root path with
    | none => simp [absentAt_of_complete hroot hs t hle] at hx
    | some y => rw [← hx, idAt_of_le hle hs]
  have hwhole := complete_of_idAt hroot hidAt
  obtain ⟨o', ho'⟩ := hwhole.exists_get
  obtain rfl : o' = o := Option.some.inj ((hle _ _ ho').symm.trans ho)
  have hbelow := completeBelow_of_get hwhole ho'
  refine ⟨x, o', hidAt, ho', ?_⟩
  rw [treeToJson, toJson_shared _ hbelow (hbelow.mono hle)]
  exact hjson

end ReadsAt

theorem deleteRecursive_lookup_self {store view : ObjectStore Id}
    {pre rest : List PathComponent} {key : String} {depth : ℕ}
    {current new : Object Id}
    (h : deleteRecursive store (pre ++ [.key key]) depth current =
      .ok (new, t)) (hview : t ≤ view) :
    lookup view new (pre ++ .key key :: rest) = none := by
  induction pre generalizing depth current new t with
  | nil =>
      rcases deleteRecursive_cons_eq_ok h with
        ⟨-, hnew, -⟩ | ⟨id, child, newChild, s'', hne, -⟩
      · rw [List.nil_append, lookup_cons]
        unfold removeChild at hnew
        split at hnew
        next entries k heq =>
          obtain rfl := PathComponent.key.inj heq
          split at hnew
          next =>
            obtain rfl := Option.some.inj hnew
            simp [childIdAt, Object.map, lookupAt_none]
          next => contradiction
        next heq => contradiction
        next => contradiction
      · exact absurd rfl hne
  | cons c pre ih =>
      rw [List.cons_append] at h
      rcases deleteRecursive_cons_eq_ok h with
        ⟨hnil, -⟩ | ⟨id, child, newChild, s'', hne, -, -, hrec, hnew, rfl⟩
      · simp at hnil
      · have hstored : view.get newChild.id = some newChild :=
          hview _ _ (AddressedMap.get_put_self s'' newChild)
        have hbelow := ih hrec ((ObjectStore.le_put s'' newChild).trans hview)
        have hchild := childIdAt_replaceChild hnew c
        rw [if_pos rfl] at hchild
        rw [List.cons_append, lookup_cons, hchild]
        simp [lookupAt, hstored, hbelow]

theorem treeDelete_idAt_self {store view : ObjectStore Id} {path : StatePath}
    {pre rest : List PathComponent} {key : String}
    (hpath : path.components = pre ++ [.key key])
    (h : treeDelete store root path = (.ok newRoot, t)) (hview : t ≤ view) :
    idAt view newRoot (pre ++ .key key :: rest) = none := by
  rcases treeDelete_eq_ok h with
    ⟨hnil, -, -⟩ | ⟨rootObj, new, s'', -, -, hdel, rfl, rfl⟩
  · simp [hnil] at hpath
  · rw [hpath] at hdel
    have hnew : view.get new.id = some new :=
      hview _ _ (AddressedMap.get_put_self s'' new)
    rw [idAt_of_get (by simp) hnew]
    exact deleteRecursive_lookup_self hdel
      ((ObjectStore.le_put s'' new).trans hview)

end AgentStateGraph
