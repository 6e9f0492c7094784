import AgentStateGraph.Core.ContentKey
import AgentStateGraph.Core.MergeStability

/-!
# What a three-way merge means

A location of a tree is the list of keys that leads to it through maps.  The
reference says what becomes of each location from the three ids there alone;
the merge is shown to follow it at every location it reaches.
-/

namespace AgentStateGraph

open KeyedMap

variable {Id : Type} [Digest Id]

/-! ## Locations -/

/-- The id under a key of a map node; none for anything else. -/
def childAt (store : ObjectStore Id) (id : Option Id) (key : String) :
    Option Id :=
  (id.bind store.get).bind fun o => o.mapEntries[key]?

/-- The id at a location. -/
def idAtKeys (store : ObjectStore Id) : Option Id → List String → Option Id
  | id, [] => id
  | id, key :: keys => idAtKeys store (childAt store id key) keys

/-- The text of a location, from the path of its root. -/
def pathText (path : String) (keys : List String) : String :=
  keys.foldl childPath path

/-! ## The reference -/

/-- What becomes of a location. -/
inductive Verdict (Id : Type) where
  | take (id : Option Id)
  | descend
  | union (ours theirs : List Id)
  | conflict
deriving DecidableEq

/-- Both sides changed the object, to different objects. -/
def objectVerdict (ours theirs : Id) (bo oo th : Object Id) : Verdict Id :=
  if oo.partialEq th then .take (some ours)
  else if bo.partialEq oo then .take (some theirs)
  else if bo.partialEq th then .take (some ours)
  else
    match bo, oo, th with
    | .node (.map _), .node (.map _), .node (.map _) => .descend
    | .node (.set _), .node (.set o), .node (.set t) => .union o t
    | _, _, _ => .conflict

/-- A side that left the id as the base has it gives way to the other; sides
that agree are taken; maps are merged key by key, sets united; anything else
is a conflict. -/
def verdict (store : ObjectStore Id) (base ours theirs : Option Id) :
    Verdict Id :=
  if ours = theirs then .take ours
  else if base = ours then .take theirs
  else if base = theirs then .take ours
  else
    match base, ours, theirs with
    | some b, some o, some t =>
        match store.get b, store.get o, store.get t with
        | some bo, some oo, some th => objectVerdict o t bo oo th
        | _, _, _ => .conflict
    | none, some o, some t =>
        match store.get o, store.get t with
        | some (.node (.map _)), some (.node (.map _)) => .descend
        | _, _ => .conflict
    | _, _, _ => .conflict

/-- The verdict at a location, unless a location above it is settled as a
whole. -/
def verdictAt (store : ObjectStore Id) :
    Option Id → Option Id → Option Id → List String → Option (Verdict Id)
  | base, ours, theirs, [] => some (verdict store base ours theirs)
  | base, ours, theirs, key :: keys =>
      if verdict store base ours theirs = .descend then
        verdictAt store (childAt store base key) (childAt store ours key)
          (childAt store theirs key) keys
      else none

/-- What the result holds where a verdict was reached: `view` is the store
with the nodes the merge made, `ours` what our side has there. -/
def FollowsVerdict (view : ObjectStore Id) (ours result : Option Id) :
    Verdict Id → Prop
  | .take id => result = id
  | .descend => ∃ id entries, result = some id ∧
      view.get id = some (Object.map entries)
  | .union o t => ∃ id items, result = some id ∧
      view.get id = some (.node (.set items)) ∧
      ∀ x, x ∈ items ↔ x ∈ o ∨ x ∈ t
  | .conflict => result = ours

/-- The conflict that is reported at a location. -/
def reportAt (store : ObjectStore Id) (path : String)
    (base ours theirs : Option Id) (keys : List String) : Conflict :=
  keyConflict store (pathText path keys) (idAtKeys store base keys)
    (idAtKeys store ours keys) (idAtKeys store theirs keys)

/-- A merged location follows the reference: everything it needed was there,
every location under it holds what its verdict says, and the conflicts are
those of the locations in conflict, each once. -/
structure FollowsReference (store : ObjectStore Id) (path : String)
    (base ours theirs result : Option Id) (log : MergeLog Id) : Prop where
  missing : log.missing = []
  result : ∀ view : ObjectStore Id, store ≤ view →
    (∀ o ∈ log.created, view.get o.id = some o) → ∀ keys v,
      verdictAt store base ours theirs keys = some v →
        FollowsVerdict view (idAtKeys store ours keys)
          (idAtKeys view result keys) v
  conflicts : ∃ locations : List (List String), locations.Nodup ∧
    (∀ keys, keys ∈ locations ↔
      verdictAt store base ours theirs keys = some .conflict) ∧
    log.conflicts = locations.map (reportAt store path base ours theirs)

/-! ## Locations settled as a whole -/

section Settled

variable {store : ObjectStore Id} {path : String}
  {base ours theirs result : Option Id} {log : MergeLog Id}

theorem verdictAt_of_ne_descend {v : Verdict Id}
    (hv : verdict store base ours theirs = v) (hne : v ≠ .descend)
    {keys : List String} {w : Verdict Id}
    (h : verdictAt store base ours theirs keys = some w) :
    keys = [] ∧ w = v := by
  cases keys with
  | nil =>
      simp only [verdictAt, Option.some.injEq] at h
      exact ⟨rfl, h.symm.trans hv⟩
  | cons key keys =>
      have hnot : verdict store base ours theirs ≠ .descend := hv ▸ hne
      simp [verdictAt, hnot] at h

theorem followsReference_of_settled {v : Verdict Id}
    (hv : verdict store base ours theirs = v) (hne : v ≠ .descend)
    (hconflict : v ≠ .conflict) (hmissing : log.missing = [])
    (hconflicts : log.conflicts = [])
    (hresult : ∀ view : ObjectStore Id, store ≤ view →
      (∀ o ∈ log.created, view.get o.id = some o) →
      FollowsVerdict view ours result v) :
    FollowsReference store path base ours theirs result log := by
  refine ⟨hmissing, ?_, ?_⟩
  · intro view hle hcreated keys w hw
    obtain ⟨rfl, rfl⟩ := verdictAt_of_ne_descend hv hne hw
    exact hresult view hle hcreated
  · refine ⟨[], List.nodup_nil, ?_, by simpa using hconflicts⟩
    intro keys
    refine iff_of_false List.not_mem_nil ?_
    intro hkeys
    exact hconflict (verdictAt_of_ne_descend hv hne hkeys).2.symm

theorem followsReference_of_take {id : Option Id}
    (hv : verdict store base ours theirs = .take id) (hresult : result = id)
    (hlog : log = .empty) :
    FollowsReference store path base ours theirs result log := by
  subst hlog
  apply followsReference_of_settled hv (by simp) (by simp) rfl rfl
  intro view _ _
  exact hresult

theorem followsReference_of_conflict
    (hv : verdict store base ours theirs = .conflict) (hresult : result = ours)
    (hmissing : log.missing = [])
    (hconflicts : log.conflicts = [keyConflict store path base ours theirs]) :
    FollowsReference store path base ours theirs result log := by
  refine ⟨hmissing, ?_, ?_⟩
  · intro view _ _ keys w hw
    obtain ⟨rfl, rfl⟩ := verdictAt_of_ne_descend hv (by simp) hw
    exact hresult
  · refine ⟨[[]], List.nodup_singleton _, ?_, ?_⟩
    · intro keys
      constructor
      · intro hkeys
        rw [List.mem_singleton.mp hkeys, verdictAt, hv]
      · intro hkeys
        rw [(verdictAt_of_ne_descend hv (by simp) hkeys).1]
        exact List.mem_singleton_self _
    · rw [hconflicts]
      rfl

end Settled

/-! ## Locations merged key by key -/

section Descend

variable {store : ObjectStore Id} {path : String}
  {base ours theirs : Option Id} {log : MergeLog Id} {id : Id}
  {entries : BTreeMap String Id} {keys : List String}
  {logs : String → MergeLog Id}

theorem verdictAt_cons_of_descend
    (hv : verdict store base ours theirs = .descend) (key : String)
    (rest : List String) :
    verdictAt store base ours theirs (key :: rest) =
      verdictAt store (childAt store base key) (childAt store ours key)
        (childAt store theirs key) rest := by
  simp [verdictAt, hv]

theorem childAt_of_get {view : ObjectStore Id} {id : Id}
    {entries : BTreeMap String Id}
    (h : view.get id = some (Object.map entries)) (key : String) :
    childAt view (some id) key = entries[key]? := by
  simp [childAt, h]

theorem exists_locations_of_descend
    (hv : verdict store base ours theirs = .descend) (hkeys : keys.Nodup)
    (habsent : ∀ key, key ∉ keys → childAt store base key = none ∧
      childAt store ours key = none ∧ childAt store theirs key = none)
    (hchild : ∀ key, FollowsReference store (childPath path key)
      (childAt store base key) (childAt store ours key)
      (childAt store theirs key) entries[key]? (logs key)) :
    ∃ locations : List (List String), locations.Nodup ∧
      (∀ ks, ks ∈ locations ↔
        verdictAt store base ours theirs ks = some .conflict) ∧
      keys.flatMap (fun key => (logs key).conflicts) =
        locations.map (reportAt store path base ours theirs) := by
  choose below hnodup hmem hreport using fun key => (hchild key).conflicts
  refine ⟨keys.flatMap fun key => (below key).map (key :: ·), ?_, ?_, ?_⟩
  · rw [List.nodup_flatMap]
    constructor
    · intro key _
      exact (hnodup key).map (List.cons_injective)
    · refine hkeys.imp ?_
      intro a b hab
      rw [Function.onFun, List.disjoint_left]
      intro ks ha hb
      obtain ⟨x, -, rfl⟩ := List.mem_map.mp ha
      obtain ⟨y, -, hy⟩ := List.mem_map.mp hb
      exact hab (List.cons.inj hy).1.symm
  · intro ks
    cases ks with
    | nil => simp [verdictAt, hv]
    | cons key rest =>
        rw [verdictAt_cons_of_descend hv, ← hmem key]
        by_cases hkey : key ∈ keys
        · simp [hkey]
        · have hnone : rest ∉ below key := by
            rw [hmem key]
            obtain ⟨hb, ho, ht⟩ := habsent key hkey
            rw [hb, ho, ht]
            intro hrest
            have hsettled : verdict store none none none = .take none := by
              simp [verdict]
            have hw := verdictAt_of_ne_descend hsettled (by simp) hrest
            simp at hw
          simp [hkey, hnone]
  · rw [List.map_flatMap]
    refine List.flatMap_congr ?_
    intro key _
    rw [hreport key, List.map_map]
    rfl

theorem followsReference_of_descend
    (hv : verdict store base ours theirs = .descend) (hkeys : keys.Nodup)
    (habsent : ∀ key, key ∉ keys → childAt store base key = none ∧
      childAt store ours key = none ∧ childAt store theirs key = none)
    (hchild : ∀ key, FollowsReference store (childPath path key)
      (childAt store base key) (childAt store ours key)
      (childAt store theirs key) entries[key]? (logs key))
    (hmissing : log.missing = [])
    (hconflicts : log.conflicts = keys.flatMap fun key => (logs key).conflicts)
    (hcreated : ∀ key, ∀ o ∈ (logs key).created, o ∈ log.created)
    (hview : ∀ view : ObjectStore Id, store ≤ view →
      (∀ o ∈ log.created, view.get o.id = some o) →
      view.get id = some (Object.map entries)) :
    FollowsReference store path base ours theirs (some id) log := by
  refine ⟨hmissing, ?_, ?_⟩
  · intro view hle hall ks w hw
    have hget := hview view hle hall
    cases ks with
    | nil =>
        simp only [verdictAt, hv, Option.some.injEq] at hw
        subst hw
        exact ⟨id, entries, rfl, hget⟩
    | cons key rest =>
        rw [verdictAt_cons_of_descend hv] at hw
        have hrest := (hchild key).result view hle
          (fun o ho => hall o (hcreated key o ho)) rest w hw
        simp only [idAtKeys, childAt_of_get hget]
        exact hrest
  · rw [hconflicts]
    exact exists_locations_of_descend hv hkeys habsent hchild

end Descend

/-! ## The merge follows the reference -/

section Follows

variable {store : ObjectStore Id} {merge : MergeFn Id} {path : String}

theorem mergeKey_of_ours_eq_theirs (base ours : Option Id) :
    mergeKey store merge path base ours ours = (ours, .empty) := by
  rcases base with _ | b <;> rcases ours with _ | o <;> simp [mergeKey]

theorem mergeKey_of_base_eq_ours (ours theirs : Option Id) :
    mergeKey store merge path ours ours theirs = (theirs, .empty) := by
  rcases ours with _ | o <;> rcases theirs with _ | t <;> simp [mergeKey]

theorem mergeKey_of_base_eq_theirs (ours theirs : Option Id) :
    mergeKey store merge path theirs ours theirs = (ours, .empty) := by
  rcases ours with _ | o <;> rcases theirs with _ | t <;> simp [mergeKey]

omit [Digest Id] in
theorem partialEq_map_iff [DecidableEq Id] {a b : BTreeMap String Id} :
    (Object.map a).partialEq (Object.map b) = true ↔ a = b := by
  simp [Object.partialEq, Object.map]

/-- Three maps merge to the map of their merged keys, whichever way
`mergeObjects` takes. -/
theorem mergeObjects_maps (store : ObjectStore Id) (fuel : ℕ) (path : String)
    (b o t : BTreeMap String Id) :
    let r := mergeObjects store (fuel + 1) path (Object.map b) (Object.map o)
      (Object.map t)
    let atKey := fun key =>
      mergeKey store (mergeObjects store fuel) (childPath path key) b[key]?
        o[key]? t[key]?
    ∃ entries, r.1 = Object.map entries ∧
      (∀ key : String, entries[key]? = (atKey key).1) ∧
      r.2.conflicts =
        (allKeys [b, o, t]).flatMap (fun key => (atKey key).2.conflicts) ∧
      (∀ key, ∀ x ∈ (atKey key).2.created, x ∈ r.2.created) ∧
      (r.2.missing = [] ↔ ∀ key, (atKey key).2.missing = []) ∧
      (entries = o ∨ entries = t ∨ Object.map entries ∈ r.2.created) := by
  intro r atKey
  -- a side taken as a whole is the map of its keys
  have htaken : ∀ entries : BTreeMap String Id, r = (Object.map entries, .empty) →
      (∀ key, atKey key = (entries[key]?, .empty)) →
      r.1 = Object.map entries ∧
      (∀ key : String, entries[key]? = (atKey key).1) ∧
      r.2.conflicts =
        (allKeys [b, o, t]).flatMap (fun key => (atKey key).2.conflicts) ∧
      (∀ key, ∀ x ∈ (atKey key).2.created, x ∈ r.2.created) ∧
      (r.2.missing = [] ↔ ∀ key, (atKey key).2.missing = []) := by
    intro entries hr hkeys
    rw [hr]
    simp [hkeys, MergeLog.empty]
  by_cases hot : o = t
  · subst hot
    have hr : r = (Object.map o, .empty) := by
      simp only [r, mergeObjects]
      rw [if_pos (partialEq_map_iff.mpr rfl)]
    obtain ⟨h₁, h₂, h₃, h₄, h₅⟩ := htaken o hr fun key =>
      mergeKey_of_ours_eq_theirs _ _
    exact ⟨o, h₁, h₂, h₃, h₄, h₅, Or.inl rfl⟩
  by_cases hbo : b = o
  · subst hbo
    have hr : r = (Object.map t, .empty) := by
      simp only [r, mergeObjects]
      rw [if_neg (mt partialEq_map_iff.mp hot),
        if_pos (partialEq_map_iff.mpr rfl)]
    obtain ⟨h₁, h₂, h₃, h₄, h₅⟩ := htaken t hr fun key =>
      mergeKey_of_base_eq_ours _ _
    exact ⟨t, h₁, h₂, h₃, h₄, h₅, Or.inr (Or.inl rfl)⟩
  by_cases hbt : b = t
  · subst hbt
    have hr : r = (Object.map o, .empty) := by
      simp only [r, mergeObjects]
      rw [if_neg (mt partialEq_map_iff.mp hot),
        if_neg (mt partialEq_map_iff.mp hbo),
        if_pos (partialEq_map_iff.mpr rfl)]
    obtain ⟨h₁, h₂, h₃, h₄, h₅⟩ := htaken o hr fun key =>
      mergeKey_of_base_eq_theirs _ _
    exact ⟨o, h₁, h₂, h₃, h₄, h₅, Or.inl rfl⟩
  · have hr : r = mergeMaps store (mergeObjects store fuel) path b o t := by
      simp only [r, mergeObjects]
      rw [if_neg (mt partialEq_map_iff.mp hot),
        if_neg (mt partialEq_map_iff.mp hbo),
        if_neg (mt partialEq_map_iff.mp hbt)]
      rfl
    have habsent : ∀ key : String, key ∉ allKeys [b, o, t] →
        atKey key = (none, .empty) := by
      intro key hkey
      simp only [mem_allKeys, List.mem_cons, List.not_mem_nil, or_false,
        exists_eq_or_imp, exists_eq_left, not_or, not_not] at hkey
      simp [atKey, hkey, mergeKey]
    refine ⟨ofKeys (allKeys [b, o, t]) fun key => (atKey key).1, ?_, ?_, ?_, ?_,
      ?_, Or.inr (Or.inr ?_)⟩
    · rw [hr]
      rfl
    · intro key
      rw [getElem?_ofKeys]
      by_cases hkey : key ∈ allKeys [b, o, t]
      · rw [if_pos hkey]
      · rw [if_neg hkey, habsent key hkey]
    · rw [hr]
      simp [mergeMaps, MergeLog.append, MergeLog.concat, MergeLog.create,
        List.flatMap_map, atKey]
    · intro key x hx
      rw [hr]
      by_cases hkey : key ∈ allKeys [b, o, t]
      · simp only [mergeMaps, MergeLog.append, MergeLog.concat,
          List.flatMap_map]
        exact List.mem_append_left _ (List.mem_flatMap.mpr ⟨key, hkey, hx⟩)
      · rw [habsent key hkey] at hx
        simp [MergeLog.empty] at hx
    · rw [hr]
      simp only [mergeMaps, MergeLog.missing_append, MergeLog.missing_create,
        List.append_nil, MergeLog.missing_concat_eq_nil_iff, List.mem_map]
      constructor
      · intro hall key
        by_cases hkey : key ∈ allKeys [b, o, t]
        · exact hall _ ⟨key, hkey, rfl⟩
        · rw [habsent key hkey]
          rfl
      · rintro hall log ⟨key, -, rfl⟩
        exact hall key
    · rw [hr]
      simp [mergeMaps, MergeLog.append, MergeLog.create, atKey]

/-- Every object of the tree at an id, where there is one, is stored. -/
def CompleteAt (store : ObjectStore Id) (id : Option Id) : Prop :=
  ∀ x, id = some x → store.Complete x

variable {id base ours theirs : Option Id} {x o t : Id} {fuel : ℕ}
  {view : ObjectStore Id}

theorem CompleteAt.childAt (h : CompleteAt store id) (key : String) :
    CompleteAt store (childAt store id key) := by
  intro x hx
  simp only [AgentStateGraph.childAt, Option.bind_eq_some_iff] at hx
  obtain ⟨o, ⟨y, hy, hget⟩, hkey⟩ := hx
  rcases o with a | (es | xs | xs)
  · simp [Object.mapEntries] at hkey
  · exact (h y hy).child hget (Object.mem_childIds_of_getElem? hkey)
  · simp [Object.mapEntries] at hkey
  · simp [Object.mapEntries] at hkey

theorem rank_childAt_lt {key : String}
    (hrank : ∀ y, id = some y → Digest.rank y < fuel + 1)
    (hx : AgentStateGraph.childAt store id key = some x) :
    Digest.rank x < fuel := by
  simp only [AgentStateGraph.childAt, Option.bind_eq_some_iff] at hx
  obtain ⟨o, ⟨y, hy, hget⟩, hkey⟩ := hx
  have hlt := hrank y hy
  rcases o with a | (es | xs | xs)
  · simp [Object.mapEntries] at hkey
  · have hmem : x ∈ (Object.node (.map es)).childIds :=
      Object.mem_childIds_of_getElem? hkey
    have := ObjectStore.rank_lt_of_get hget hmem
    omega
  · simp [Object.mapEntries] at hkey
  · simp [Object.mapEntries] at hkey

/-- What the induction over the fuel says of every location. -/
def FollowsFor (store : ObjectStore Id) (fuel : ℕ) : Prop :=
  ∀ (path : String) (base ours theirs : Option Id), CompleteAt store base →
    CompleteAt store ours → CompleteAt store theirs →
    (∀ x, ours = some x → Digest.rank x < fuel) →
    FollowsReference store path base ours theirs
      (mergeKey store (mergeObjects store fuel) path base ours theirs).1
      (mergeKey store (mergeObjects store fuel) path base ours theirs).2

theorem followsReference_maps (ih : FollowsFor store fuel)
    {be oe te : BTreeMap String Id} (hb : CompleteAt store base)
    (ho : CompleteAt store (some o)) (ht : CompleteAt store (some t))
    (hrank : Digest.rank o < fuel + 1)
    (hv : verdict store base (some o) (some t) = .descend)
    (hbe : ∀ key, childAt store base key = be[key]?)
    (hoe : store.get o = some (Object.map oe))
    (hte : store.get t = some (Object.map te)) :
    FollowsReference store path base (some o) (some t)
      (some (mergeObjects store (fuel + 1) path (Object.map be) (Object.map oe)
        (Object.map te)).1.id)
      (mergeObjects store (fuel + 1) path (Object.map be) (Object.map oe)
        (Object.map te)).2 := by
  obtain ⟨entries, hr, hkeys, hconflicts, hcreated, hmissing, hstored⟩ :=
    mergeObjects_maps store fuel path be oe te
  have hchild : ∀ key, FollowsReference store (childPath path key)
      (childAt store base key) (childAt store (some o) key)
      (childAt store (some t) key) entries[key]?
      (mergeKey store (mergeObjects store fuel) (childPath path key) be[key]?
        oe[key]? te[key]?).2 := by
    intro key
    have hkey := ih (childPath path key) _ _ _ (hb.childAt key)
      (ho.childAt key) (ht.childAt key)
      (fun x hx => rank_childAt_lt (fun y hy => Option.some.inj hy ▸ hrank) hx)
    rw [hbe, childAt_of_get hoe, childAt_of_get hte] at hkey ⊢
    rw [hkeys key]
    exact hkey
  refine followsReference_of_descend hv (nodup_allKeys [be, oe, te]) ?_ hchild
    (hmissing.mpr fun key => (hchild key).missing) hconflicts hcreated ?_
  · intro key hkey
    simp only [mem_allKeys, List.mem_cons, List.not_mem_nil, or_false,
      exists_eq_or_imp, exists_eq_left, not_or, not_not] at hkey
    rw [hbe, childAt_of_get hoe, childAt_of_get hte]
    exact hkey
  · intro view hle hall
    rw [hr]
    rcases hstored with rfl | rfl | hmem
    · rw [ObjectStore.id_eq_of_get hoe]
      exact hle o _ hoe
    · rw [ObjectStore.id_eq_of_get hte]
      exact hle t _ hte
    · exact hall _ hmem

theorem mem_sortedUnion {ours theirs : List Id} :
    x ∈ ((Std.ExtTreeSet.ofList (ours ++ theirs) compare).toList.insertionSort
        (· ≤ ·)).dedup ↔ x ∈ ours ∨ x ∈ theirs := by
  rw [List.mem_dedup, List.mem_insertionSort, Std.ExtTreeSet.mem_toList,
    Std.ExtTreeSet.mem_ofList, List.contains_iff_mem, List.mem_append]

/-- Three objects no two of which compare equal: maps, sets, or a conflict. -/
theorem mergeObjects_differ (store : ObjectStore Id) (fuel : ℕ) (path : String)
    {bo oo th : Object Id} (h₁ : ¬oo.partialEq th = true)
    (h₂ : ¬bo.partialEq oo = true) (h₃ : ¬bo.partialEq th = true) :
    let r := mergeObjects store (fuel + 1) path bo oo th
    (∃ b o t, bo = Object.map b ∧ oo = Object.map o ∧ th = Object.map t) ∨
    (∃ b o t, bo = .node (.set b) ∧ oo = .node (.set o) ∧
      th = .node (.set t) ∧ r = mergeSets o t) ∨
    ((∀ o t, objectVerdict o t bo oo th = .conflict) ∧ r.1 = oo ∧
      r.2.conflicts = [objectConflict path bo oo th] ∧ r.2.missing = []) := by
  intro r
  simp only [r, mergeObjects]
  rw [if_neg h₁, if_neg h₂, if_neg h₃]
  split
  next b o t => exact Or.inl ⟨b, o, t, rfl, rfl, rfl⟩
  next b o t =>
    refine Or.inr (Or.inr ?_)
    have hne : o ≠ t := by
      intro h
      apply h₁
      simp [Object.partialEq, h]
    refine ⟨?_, ?_⟩
    · intro x y
      simp [objectVerdict, h₁, h₂, h₃]
    · simp [mergeLists, hne, MergeLog.append, MergeLog.conflict,
        MergeLog.create, Object.list]
  next b o t => exact Or.inr (Or.inl ⟨b, o, t, rfl, rfl, rfl, rfl⟩)
  next hmaps hlists hsets =>
    refine Or.inr (Or.inr ⟨?_, rfl, rfl, rfl⟩)
    intro x y
    simp only [objectVerdict]
    rw [if_neg h₁, if_neg h₂, if_neg h₃]

/-- A key that all three have and both sides changed. -/
theorem followsReference_changed (ih : FollowsFor store fuel) {b : Id}
    (hb : store.Complete b) (ho : store.Complete o) (ht : store.Complete t)
    (hrank : Digest.rank o < fuel + 1) (hot : o ≠ t) (hbo : b ≠ o)
    (hbt : b ≠ t) :
    FollowsReference store path (some b) (some o) (some t)
      (mergeChanged store (mergeObjects store (fuel + 1)) path b o t).1
      (mergeChanged store (mergeObjects store (fuel + 1)) path b o t).2 := by
  obtain ⟨bo, hbo'⟩ := hb.exists_get
  obtain ⟨oo, hoo⟩ := ho.exists_get
  obtain ⟨th, hth⟩ := ht.exists_get
  have hv : verdict store (some b) (some o) (some t) =
      objectVerdict o t bo oo th := by
    simp [verdict, hot, hbo, hbt, hbo', hoo, hth]
  have hmerge : mergeChanged store (mergeObjects store (fuel + 1)) path b o t =
      (some (mergeObjects store (fuel + 1) path bo oo th).1.id,
        (mergeObjects store (fuel + 1) path bo oo th).2) := by
    simp [mergeChanged, hbo', hoo, hth]
  have hoid := ObjectStore.id_eq_of_get hoo
  have htid := ObjectStore.id_eq_of_get hth
  rw [hmerge]
  by_cases h₁ : oo.partialEq th = true
  · have htake : verdict store (some b) (some o) (some t) = .take (some o) := by
      simp [hv, objectVerdict, h₁]
    refine followsReference_of_take htake ?_ ?_
    · simp [mergeObjects, h₁, hoid]
    · simp [mergeObjects, h₁]
  by_cases h₂ : bo.partialEq oo = true
  · have htake : verdict store (some b) (some o) (some t) = .take (some t) := by
      simp [hv, objectVerdict, h₁, h₂]
    refine followsReference_of_take htake ?_ ?_
    · simp [mergeObjects, h₁, h₂, htid]
    · simp [mergeObjects, h₁, h₂]
  by_cases h₃ : bo.partialEq th = true
  · have htake : verdict store (some b) (some o) (some t) = .take (some o) := by
      simp [hv, objectVerdict, h₁, h₂, h₃]
    refine followsReference_of_take htake ?_ ?_
    · simp [mergeObjects, h₁, h₂, h₃, hoid]
    · simp [mergeObjects, h₁, h₂, h₃]
  rcases mergeObjects_differ store fuel path h₁ h₂ h₃ with
    ⟨be, oe, te, rfl, rfl, rfl⟩ | ⟨bs, os, ts, rfl, rfl, rfl, hr⟩ |
      ⟨hconf, hres, hcs, hmiss⟩
  · have hdescend : verdict store (some b) (some o) (some t) = .descend := by
      rw [hv]
      simp only [objectVerdict]
      rw [if_neg h₁, if_neg h₂, if_neg h₃]
      rfl
    have hcomplete : ∀ {x : Id}, store.Complete x → CompleteAt store (some x) :=
      fun h y hy => Option.some.inj hy ▸ h
    exact followsReference_maps ih (hcomplete hb) (hcomplete ho) (hcomplete ht)
      hrank hdescend (childAt_of_get hbo') hoo hth
  · have hunion : verdict store (some b) (some o) (some t) = .union os ts := by
      simp [hv, objectVerdict, h₁, h₂, h₃]
    rw [hr]
    apply followsReference_of_settled hunion (by simp) (by simp) rfl rfl
    intro view _ hall
    refine ⟨_, _, rfl, hall _ (List.mem_singleton_self _), ?_⟩
    intro x
    exact mem_sortedUnion
  · refine followsReference_of_conflict (hv.trans (hconf o t)) ?_ hmiss ?_
    · rw [hres, hoid]
    · rw [hcs]
      simp [objectConflict, keyConflict, hbo', hoo, hth]

theorem followsReference_added (ih : FollowsFor store fuel)
    (ho : store.Complete o) (ht : store.Complete t)
    (hrank : Digest.rank o < fuel + 1) (hot : o ≠ t) :
    FollowsReference store path none (some o) (some t)
      (mergeAdded store (mergeObjects store (fuel + 1)) path o t).1
      (mergeAdded store (mergeObjects store (fuel + 1)) path o t).2 := by
  obtain ⟨oo, hoo⟩ := ho.exists_get
  obtain ⟨th, hth⟩ := ht.exists_get
  unfold mergeAdded
  split
  next oe te hoe hte =>
    have hdescend : verdict store none (some o) (some t) = .descend := by
      simp [verdict, hot, hoe, hte]
    have hnone : CompleteAt store none := fun x hx => by simp at hx
    exact followsReference_maps ih hnone (fun y hy => Option.some.inj hy ▸ ho)
      (fun y hy => Option.some.inj hy ▸ ht) hrank hdescend
      (fun key => by simp [childAt]) hoe hte
  next hnot =>
    have hconflict : verdict store none (some o) (some t) = .conflict := by
      simp only [verdict, Option.some.injEq, hot, if_false, reduceCtorEq]
    refine followsReference_of_conflict hconflict rfl ?_ ?_
    · simp [MergeLog.missing_asked_eq_nil_iff, hoo, hth]
    · simp [MergeLog.append, MergeLog.asked, MergeLog.conflict]

theorem followsReference_deleted {log : MergeLog Id} {ids : List Id}
    (hids : ∀ x ∈ ids, store.Complete x)
    (hv : verdict store base ours theirs = .conflict)
    (hlog : log = (MergeLog.asked store ids).append
      (.conflict (keyConflict store path base ours theirs))) :
    FollowsReference store path base ours theirs ours log := by
  subst hlog
  refine followsReference_of_conflict hv rfl ?_ ?_
  · simp only [MergeLog.missing_append, MergeLog.missing_conflict,
      List.append_nil, MergeLog.missing_asked_eq_nil_iff]
    intro x hx
    obtain ⟨o, ho⟩ := (hids x hx).exists_get
    simp [ho]
  · simp [MergeLog.append, MergeLog.asked, MergeLog.conflict]

/-- One location, from the locations below it. -/
theorem followsFor_step (ih : ∀ n, fuel = n + 1 → FollowsFor store n) :
    FollowsFor store fuel := by
  intro path base ours theirs hb ho ht hrank
  by_cases hot : ours = theirs
  · subst hot
    rw [mergeKey_of_ours_eq_theirs]
    exact followsReference_of_take (by simp [verdict]) rfl rfl
  by_cases hbo : base = ours
  · subst hbo
    rw [mergeKey_of_base_eq_ours]
    exact followsReference_of_take (by simp [verdict, hot]) rfl rfl
  by_cases hbt : base = theirs
  · subst hbt
    rw [mergeKey_of_base_eq_theirs]
    exact followsReference_of_take (by simp [verdict, hot, hbo]) rfl rfl
  rcases base with _ | b <;> rcases ours with _ | o <;> rcases theirs with _ | t
  · exact absurd rfl hot
  · exact absurd rfl hbo
  · exact absurd rfl hbt
  · have hlt := hrank o rfl
    obtain ⟨n, rfl⟩ : ∃ n, fuel = n + 1 := ⟨fuel - 1, by omega⟩
    have hne : o ≠ t := fun h => hot (by rw [h])
    simp only [mergeKey, if_neg hne]
    exact followsReference_added (ih n rfl) (ho o rfl) (ht t rfl) hlt hne
  · exact absurd rfl hot
  · have hne : b ≠ t := fun h => hbt (by rw [h])
    simp only [mergeKey, if_neg hne]
    have hids : ∀ x ∈ [t, b], store.Complete x := by
      simpa using And.intro (ht t rfl) (hb b rfl)
    exact followsReference_deleted hids (by simp [verdict, hne]) rfl
  · have hne : b ≠ o := fun h => hbo (by rw [h])
    simp only [mergeKey, if_neg hne]
    have hids : ∀ x ∈ [o, b], store.Complete x := by
      simpa using And.intro (ho o rfl) (hb b rfl)
    exact followsReference_deleted hids (by simp [verdict, hne]) rfl
  · have hlt := hrank o rfl
    obtain ⟨n, rfl⟩ : ∃ n, fuel = n + 1 := ⟨fuel - 1, by omega⟩
    have h₁ : o ≠ t := fun h => hot (by rw [h])
    have h₂ : b ≠ o := fun h => hbo (by rw [h])
    have h₃ : b ≠ t := fun h => hbt (by rw [h])
    simp only [mergeKey, if_neg h₁, if_neg h₂, if_neg h₃]
    exact followsReference_changed (ih n rfl) (hb b rfl) (ho o rfl) (ht t rfl)
      hlt h₁ h₂ h₃

theorem followsFor (store : ObjectStore Id) (fuel : ℕ) :
    FollowsFor store fuel := by
  induction fuel with
  | zero => exact followsFor_step fun n hn => by omega
  | succ fuel ih =>
      refine followsFor_step ?_
      intro n hn
      obtain rfl : fuel = n := by omega
      exact ih

/-! ## What is dropped -/

theorem childAt_of_le (hle : store ≤ view) (h : CompleteAt store id)
    (key : String) : childAt view id key = childAt store id key := by
  rcases id with _ | x
  · rfl
  · obtain ⟨o, ho⟩ := (h x rfl).exists_get
    simp [childAt, ho, hle x o ho]

theorem idAtKeys_of_le (hle : store ≤ view) (h : CompleteAt store id)
    (keys : List String) : idAtKeys view id keys = idAtKeys store id keys := by
  induction keys generalizing id with
  | nil => rfl
  | cons key keys ih =>
      simp only [idAtKeys, childAt_of_le hle h]
      exact ih (h.childAt key)

theorem idAtKeys_none (store : ObjectStore Id) (keys : List String) :
    idAtKeys store none keys = none := by
  induction keys with
  | nil => rfl
  | cons key keys ih => exact ih

/-- Nothing is below the location. -/
def Keyless (store : ObjectStore Id) (id : Option Id) : Prop :=
  ∀ key, childAt store id key = none

theorem keyless_of_get {id : Id} {o : Object Id} (hget : store.get id = some o)
    (ho : o.mapEntries = ∅) : Keyless store (some id) := by
  intro key
  simp [childAt, hget, ho]

omit [Digest Id] in
/-- Different objects that compare equal are atoms. -/
theorem exists_atoms_of_partialEq [DecidableEq Id] {a b : Object Id}
    (hne : a ≠ b) (h : a.partialEq b = true) :
    (∃ x, a = .atom x) ∧ ∃ y, b = .atom y := by
  rcases a with x | m <;> rcases b with y | n
  · exact ⟨⟨x, rfl⟩, ⟨y, rfl⟩⟩
  · simp [Object.partialEq] at h
  · simp [Object.partialEq] at h
  · refine absurd ?_ hne
    simpa [Object.partialEq] using h

theorem ne_of_get {y : Id} {a c : Object Id} (hxy : x ≠ y)
    (hx : store.get x = some a) (hy : store.get y = some c) : a ≠ c := by
  intro hac
  rw [hac] at hx
  exact hxy ((ObjectStore.id_eq_of_get hx).symm.trans
    (ObjectStore.id_eq_of_get hy))

/-- What happened when a location is taken as a whole: the sides agree, or
one of them is as the base, or the side that is not taken has nothing below. -/
inductive Taken (store : ObjectStore Id) (base ours theirs : Option Id) :
    Option Id → Prop where
  | agreed : ours = theirs → Taken store base ours theirs ours
  | theirs : base = ours → Taken store base ours theirs theirs
  | ours : base = theirs → Taken store base ours theirs ours
  | equalOurs : ours ≠ none → Keyless store theirs →
      Taken store base ours theirs ours
  | equalTheirs : theirs ≠ none → Keyless store ours →
      Taken store base ours theirs theirs

theorem taken_of_objectVerdict {b : Id} {bo oo th : Object Id} (hbo : b ≠ o)
    (hbt : b ≠ t) (hot : o ≠ t) (hb : store.get b = some bo)
    (ho : store.get o = some oo) (ht : store.get t = some th)
    (h : objectVerdict o t bo oo th = .take id) :
    Taken store (some b) (some o) (some t) id := by
  unfold objectVerdict at h
  split at h
  next heq =>
    obtain ⟨-, y, rfl⟩ := exists_atoms_of_partialEq (ne_of_get hot ho ht) heq
    rw [← Verdict.take.inj h]
    exact .equalOurs (by simp) (keyless_of_get ht rfl)
  split at h
  next heq =>
    obtain ⟨-, y, rfl⟩ := exists_atoms_of_partialEq (ne_of_get hbo hb ho) heq
    rw [← Verdict.take.inj h]
    exact .equalTheirs (by simp) (keyless_of_get ho rfl)
  split at h
  next heq =>
    obtain ⟨-, y, rfl⟩ := exists_atoms_of_partialEq (ne_of_get hbt hb ht) heq
    rw [← Verdict.take.inj h]
    exact .equalOurs (by simp) (keyless_of_get ht rfl)
  split at h <;> contradiction

theorem verdict_cases (hb : CompleteAt store base) (ho : CompleteAt store ours)
    (ht : CompleteAt store theirs) :
    (∃ id, verdict store base ours theirs = .take id ∧
      Taken store base ours theirs id) ∨
    verdict store base ours theirs = .descend ∨
    (∃ o t, verdict store base ours theirs = .union o t ∧
      Keyless store ours ∧ Keyless store theirs) ∨
    verdict store base ours theirs = .conflict := by
  by_cases hot : ours = theirs
  · exact Or.inl ⟨ours, by simp [verdict, hot], .agreed hot⟩
  by_cases hbo : base = ours
  · exact Or.inl ⟨theirs, by simp [verdict, hot, hbo], .theirs hbo⟩
  by_cases hbt : base = theirs
  · exact Or.inl ⟨ours, by simp [verdict, hot, hbt], .ours hbt⟩
  rcases base with _ | b <;> rcases ours with _ | o <;> rcases theirs with _ | t
  · exact absurd rfl hot
  · exact absurd rfl hbo
  · exact absurd rfl hbt
  · simp only [verdict, hot, hbo, hbt, if_false]
    split <;> simp
  · exact absurd rfl hot
  · simp [verdict, hot, hbo, hbt]
  · simp [verdict, hot, hbo, hbt]
  · obtain ⟨bo, hbo'⟩ := (hb b rfl).exists_get
    obtain ⟨oo, hoo⟩ := (ho o rfl).exists_get
    obtain ⟨th, hth⟩ := (ht t rfl).exists_get
    have hv : verdict store (some b) (some o) (some t) =
        objectVerdict o t bo oo th := by
      simp only [verdict, hot, hbo, hbt, if_false, hbo', hoo, hth]
    have hmk : ∀ {x y : Id}, some x ≠ some y → x ≠ y :=
      fun h hxy => h (by rw [hxy])
    rw [hv]
    cases hov : objectVerdict o t bo oo th with
    | take id =>
        exact Or.inl ⟨id, rfl, taken_of_objectVerdict (hmk hbo) (hmk hbt)
          (hmk hot) hbo' hoo hth hov⟩
    | descend => exact Or.inr (Or.inl rfl)
    | conflict => exact Or.inr (Or.inr (Or.inr rfl))
    | union xs ys =>
        refine Or.inr (Or.inr (Or.inl ⟨xs, ys, rfl, ?_⟩))
        unfold objectVerdict at hov
        split at hov
        · contradiction
        split at hov
        · contradiction
        split at hov
        · contradiction
        split at hov
        next => contradiction
        next => exact ⟨keyless_of_get hoo rfl, keyless_of_get hth rfl⟩
        next => contradiction

/-- One side lost a location that the other left as the base has it. -/
def DeletedAt (store : ObjectStore Id) (base ours theirs : Option Id)
    (keys : List String) : Prop :=
  (idAtKeys store ours keys = none ∧
      idAtKeys store theirs keys = idAtKeys store base keys) ∨
    (idAtKeys store theirs keys = none ∧
      idAtKeys store ours keys = idAtKeys store base keys)

theorem Taken.deletedAt (h : Taken store base ours theirs id)
    {keys : List String} (hpresent : idAtKeys store ours keys ≠ none ∨
      idAtKeys store theirs keys ≠ none)
    (habsent : idAtKeys store id keys = none) :
    DeletedAt store base ours theirs keys := by
  have hkeyless : ∀ {x y : Option Id}, y ≠ none → Keyless store x →
      idAtKeys store y keys = none → idAtKeys store x keys = none := by
    intro x y hy hx hnone
    cases keys with
    | nil => exact absurd hnone hy
    | cons key keys =>
        simp only [idAtKeys, hx key]
        exact idAtKeys_none store keys
  cases h with
  | agreed heq =>
      subst heq
      exact absurd habsent (or_self_iff.mp hpresent)
  | theirs heq => exact Or.inr ⟨habsent, by rw [heq]⟩
  | ours heq => exact Or.inl ⟨habsent, by rw [heq]⟩
  | equalOurs hsome hless =>
      have hother := hkeyless hsome hless habsent
      exact absurd hpresent (by simp [habsent, hother])
  | equalTheirs hsome hless =>
      have hother := hkeyless hsome hless habsent
      exact absurd hpresent (by simp [habsent, hother])

theorem deletedAt_of_absent (hle : store ≤ view) {keys : List String}
    {result : Option Id} (hb : CompleteAt store base)
    (ho : CompleteAt store ours) (ht : CompleteAt store theirs)
    (hfollows : ∀ ks v, verdictAt store base ours theirs ks = some v →
      FollowsVerdict view (idAtKeys store ours ks) (idAtKeys view result ks) v)
    (hclean : ∀ ks, verdictAt store base ours theirs ks ≠ some .conflict)
    (hpresent : idAtKeys store ours keys ≠ none ∨
      idAtKeys store theirs keys ≠ none)
    (habsent : idAtKeys view result keys = none) :
    DeletedAt store base ours theirs keys := by
  induction keys generalizing base ours theirs result with
  | nil =>
      have hroot := hfollows [] _ rfl
      rcases verdict_cases hb ho ht with
        ⟨id, hv, htaken⟩ | hv | ⟨o, t, hv, -⟩ | hv
      · rw [hv] at hroot
        have hid : id = none := hroot.symm.trans habsent
        exact htaken.deletedAt hpresent hid
      · rw [hv] at hroot
        obtain ⟨id, entries, hid, -⟩ := hroot
        rw [hid] at habsent
        simp at habsent
      · rw [hv] at hroot
        obtain ⟨id, items, hid, -⟩ := hroot
        rw [hid] at habsent
        simp at habsent
      · exact absurd (by rw [verdictAt, hv]) (hclean [])
  | cons key keys ih =>
      have hroot := hfollows [] _ rfl
      rcases verdict_cases hb ho ht with
        ⟨id, hv, htaken⟩ | hv | ⟨o, t, hv, hours, htheirs⟩ | hv
      · rw [hv] at hroot
        have hid : result = id := hroot
        have hcomplete : CompleteAt store id := by
          cases htaken <;> assumption
        rw [hid, idAtKeys_of_le hle hcomplete] at habsent
        exact htaken.deletedAt hpresent habsent
      · refine ih (hb.childAt key) (ho.childAt key) (ht.childAt key) ?_ ?_
          hpresent habsent
        · intro ks v hks
          exact hfollows (key :: ks) v
            ((verdictAt_cons_of_descend hv key ks).trans hks)
        · intro ks hks
          exact hclean (key :: ks)
            ((verdictAt_cons_of_descend hv key ks).trans hks)
      · simp only [idAtKeys, hours key, htheirs key, idAtKeys_none] at hpresent
        simp at hpresent
      · exact absurd (by rw [verdictAt, hv]) (hclean [])

end Follows

/-! ## The whole merge -/

namespace MergeResult

/-- The root the merge answers with. -/
def rootId : MergeResult Id → Id
  | .success merged => merged.id
  | .conflicts merged _ => merged.id
  | .fastForward id => id

def reported : MergeResult Id → List Conflict
  | .conflicts _ found => found
  | _ => []

/-- The merge reports success: it merged, or one side is taken. -/
def isClean : MergeResult Id → Bool
  | .conflicts _ _ => false
  | _ => true

end MergeResult

theorem threeWayMergeCollect_eq_mergeKey {store : ObjectStore Id}
    {base ours theirs : Id} (hb : store.Complete base)
    (ho : store.Complete ours) (ht : store.Complete theirs) :
    let r := mergeKey store (mergeObjects store (Digest.rank ours + 1)) "/"
      (some base) (some ours) (some theirs)
    let m := threeWayMergeCollect store base ours theirs
    r.1 = some m.1.rootId ∧ m.2 = r.2 ∧ m.1.reported = r.2.conflicts ∧
      (m.1.isClean = true ↔ r.2.conflicts = []) := by
  intro r m
  have hff : ∀ id : Id, r = (some id, .empty) →
      m = (.fastForward id, .empty) →
      r.1 = some m.1.rootId ∧ m.2 = r.2 ∧ m.1.reported = r.2.conflicts ∧
      (m.1.isClean = true ↔ r.2.conflicts = []) := by
    intro id hr hm
    rw [hr, hm]
    simp [MergeResult.rootId, MergeResult.reported, MergeResult.isClean,
      MergeLog.empty]
  by_cases hbo : base = ours
  · subst hbo
    exact hff theirs (mergeKey_of_base_eq_ours _ _)
      (by simp [m, threeWayMergeCollect])
  by_cases hbt : base = theirs
  · subst hbt
    exact hff ours (mergeKey_of_base_eq_theirs _ _)
      (by simp [m, threeWayMergeCollect, hbo])
  by_cases hot : ours = theirs
  · subst hot
    exact hff ours (mergeKey_of_ours_eq_theirs _ _)
      (by simp [m, threeWayMergeCollect, hbo])
  obtain ⟨bo, hbase⟩ := hb.exists_get
  obtain ⟨oo, hours⟩ := ho.exists_get
  obtain ⟨th, htheirs⟩ := ht.exists_get
  have hr : r = (some (mergeObjects store (Digest.rank ours + 1) "/" bo oo
      th).1.id, (mergeObjects store (Digest.rank ours + 1) "/" bo oo th).2) := by
    simp [r, mergeKey, mergeChanged, hbo, hbt, hot, hbase, hours, htheirs]
  have hm : m = (if (mergeObjects store (Digest.rank ours + 1) "/" bo oo
      th).2.conflicts = [] then
        .success (mergeObjects store (Digest.rank ours + 1) "/" bo oo th).1
      else
        .conflicts (mergeObjects store (Digest.rank ours + 1) "/" bo oo th).1
          (mergeObjects store (Digest.rank ours + 1) "/" bo oo th).2.conflicts,
      (mergeObjects store (Digest.rank ours + 1) "/" bo oo th).2) := by
    simp [m, threeWayMergeCollect, hbo, hbt, hot, hbase, hours, htheirs]
  rw [hr, hm]
  by_cases hnil : (mergeObjects store (Digest.rank ours + 1) "/" bo oo
      th).2.conflicts = []
  · simp [hnil, MergeResult.rootId, MergeResult.reported, MergeResult.isClean]
  · simp [hnil, MergeResult.rootId, MergeResult.reported, MergeResult.isClean]

/-- On trees that are all there, the merge finds every object it asks for and
is its reference: every location holds what its verdict says; the conflicts
are those of the locations in conflict, each once and with its own path; the
merge is clean exactly when there is none; and a clean merge drops a location
of either side only when one side deleted it and the other left it alone. -/
theorem threeWayMergeCollect_keywise (store : ObjectStore Id)
    {base ours theirs : Id} (hb : store.Complete base)
    (ho : store.Complete ours) (ht : store.Complete theirs) :
    let m := threeWayMergeCollect store base ours theirs
    let view := store.putAll m.2.created
    let result := some m.1.rootId
    let verdicts := verdictAt store (some base) (some ours) (some theirs)
    tryThreeWayMergeCollect store base ours theirs =
        .ok (m.1, m.2.created) ∧
      (∀ keys v, verdicts keys = some v →
        FollowsVerdict view (idAtKeys store (some ours) keys)
          (idAtKeys view result keys) v) ∧
      (∃ locations : List (List String), locations.Nodup ∧
        (∀ keys, keys ∈ locations ↔ verdicts keys = some .conflict) ∧
        m.1.reported = locations.map
          (reportAt store "/" (some base) (some ours) (some theirs))) ∧
      (m.1.isClean = true ↔ ∀ keys, verdicts keys ≠ some .conflict) ∧
      (m.1.isClean = true → ∀ keys,
        idAtKeys store (some ours) keys ≠ none ∨
          idAtKeys store (some theirs) keys ≠ none →
        idAtKeys view result keys = none →
        DeletedAt store (some base) (some ours) (some theirs) keys) := by
  intro m view result verdicts
  have hcomplete : ∀ {x : Id}, store.Complete x → CompleteAt store (some x) :=
    fun h y hy => Option.some.inj hy ▸ h
  obtain ⟨hroot, hlog, hreported, hclean⟩ :=
    threeWayMergeCollect_eq_mergeKey hb ho ht
  have hfollows := followsFor store (Digest.rank ours + 1) "/" (some base)
    (some ours) (some theirs) (hcomplete hb) (hcomplete ho) (hcomplete ht)
    (fun x hx => by rw [← Option.some.inj hx]; omega)
  rw [hroot, ← hlog] at hfollows
  rw [← hlog] at hreported hclean
  have hle : store ≤ view := ObjectStore.le_putAll store m.2.created
  have hview : ∀ o ∈ m.2.created, view.get o.id = some o := by
    intro o hmem
    exact AddressedMap.get_putAll_of_mem Object.id_injective store hmem
  have hresult := hfollows.result view hle hview
  obtain ⟨locations, hnodup, hmem, hmap⟩ := hfollows.conflicts
  have hiff : m.1.isClean = true ↔ ∀ keys, verdicts keys ≠ some .conflict := by
    rw [hclean, hmap, List.map_eq_nil_iff, List.eq_nil_iff_forall_not_mem]
    exact forall_congr' fun keys => not_congr (hmem keys)
  refine ⟨?_, hresult, ⟨locations, hnodup, hmem, hreported.trans hmap⟩, hiff, ?_⟩
  · simp only [tryThreeWayMergeCollect]
    rw [hfollows.missing]
  · intro hc keys hpresent habsent
    exact deletedAt_of_absent hle (hcomplete hb) (hcomplete ho) (hcomplete ht)
      hresult (hiff.mp hc) hpresent habsent

/-! ## Where the merge is coarser than key by key -/

namespace Coarse

open ContentKey

def x : Object ContentKey := Object.string "x"

def y : Object ContentKey := Object.string "y"

def float (f : F64) : Object ContentKey := .atom (.float f)

def members (os : List (Object ContentKey)) : Object ContentKey :=
  Object.set (os.map Object.id)

def base : Object ContentKey :=
  mapOf [("d", x), ("m", x), ("s", members [x, y]), ("z", float F64.one)]

/-- Removes the member `y` and the key `d`. -/
def ours : Object ContentKey :=
  mapOf [("m", mapOf [("a", x)]), ("s", members [x]), ("z", float F64.zero)]

/-- Adds a member and changes `d`. -/
def theirs : Object ContentKey :=
  mapOf [("d", y), ("m", mapOf [("b", y)]), ("s", members [x, y, base]),
    ("z", float F64.negZero)]

def store : ObjectStore ContentKey :=
  AddressedMap.empty.putAll
    [x, y, float F64.one, float F64.zero, float F64.negZero, members [x, y],
      members [x], mapOf [("a", x)], mapOf [("b", y)], base,
      members [x, y, base], ours, theirs]

def merged : MergeResult ContentKey × MergeLog ContentKey :=
  threeWayMergeCollect store base.id ours.id theirs.id

def view : ObjectStore ContentKey := store.putAll merged.2.created

/-- The id at a key of the result. -/
def resultAt (key : String) : Option ContentKey :=
  idAtKeys view (some merged.1.rootId) [key]

end Coarse

set_option maxRecDepth 16384 in
open Coarse in
/-- A member one side removed and the other left comes back; maps that replace
another kind of object are a conflict, not merged; zeros of either sign are
one value; and a conflict between a deletion and a change keeps the deletion. -/
theorem merge_not_keywise :
    (resultAt "s").bind view.get = some (members [x, y, base]) ∧
      merged.1.reported.map Conflict.path = ["/d", "/m"] ∧
      resultAt "z" = some (float F64.zero).id ∧ resultAt "d" = none := by
  decide

set_option maxRecDepth 16384 in
open Coarse in
/-- The general statement on these trees. -/
theorem threeWayMergeCollect_keywise_coarse :
    tryThreeWayMergeCollect store base.id ours.id theirs.id =
        .ok (merged.1, merged.2.created) ∧
      merged.1.isClean = false ∧
      ∃ locations : List (List String), locations.Nodup ∧
        merged.1.reported = locations.map
          (reportAt store "/" (some base.id) (some ours.id)
            (some theirs.id)) := by
  have hclosed : store.isClosed = true := by decide
  have hcomplete : ∀ o : Object ContentKey, (store.get o.id).isSome = true →
      store.Complete o.id :=
    fun o ho => ObjectStore.complete_of_isClosed hclosed ho
  obtain ⟨htry, -, ⟨locations, hnodup, -, hmap⟩, -⟩ :=
    threeWayMergeCollect_keywise store (hcomplete base (by decide))
      (hcomplete ours (by decide))
      (hcomplete theirs (by decide))
  have hclean : merged.1.isClean = false := by decide
  unfold merged at hclean ⊢
  exact ⟨htry, hclean, locations, hnodup, hmap⟩

end AgentStateGraph
