import AgentStateGraph.Core.MergeReference
import AgentStateGraph.Lib.Resolving

/-!
# Strict merge over any resolver

The merge reads its objects through a resolver, which may be any partial
function.  The strict merge hands it a resolver that notes the first id it
could not resolve: it succeeds exactly where the plain merge was answered
throughout, with the same result, and it succeeds on complete trees.
-/

namespace AgentStateGraph

open Resolving

variable {Id : Type} [Digest Id]

/-- What a part of the merge appended to `conflicts` and to `created`. -/
structure MergeAdds (Id : Type) where
  conflicts : List Conflict
  created : List (Object Id)

namespace MergeAdds

def none : MergeAdds Id := ⟨[], []⟩

def append (a b : MergeAdds Id) : MergeAdds Id :=
  ⟨a.conflicts ++ b.conflicts, a.created ++ b.created⟩

def conflict (c : Conflict) : MergeAdds Id := ⟨[c], []⟩

def create (o : Object Id) : MergeAdds Id := ⟨[], [o]⟩

end MergeAdds

/-- A part of the merge, over the resolver. -/
abbrev ResolvingMerge (Id α : Type) := Resolving Id (Object Id) α

namespace ResolvingMerge

/-- A merge of three objects at a path: the shape of the recursive call. -/
abbrev MergeFn (Id : Type) :=
  String → Object Id → Object Id → Object Id →
    ResolvingMerge Id (Object Id × MergeAdds Id)

/-- `resolver.resolve(id).map(ConflictValue::from_object)`. -/
def resolveValue (id : Id) : ResolvingMerge Id (Option ConflictValue) := do
  let object ← resolve id
  pure (object.map ConflictValue.ofObject)

/-! ## The merge -/

/-- A key all three sides have, with three different ids. -/
def mergeChanged (merge : MergeFn Id) (path : String) (b o t : Id) :
    ResolvingMerge Id (Option Id × MergeAdds Id) := do
  let baseObj ← resolve b
  let ourObj ← resolve o
  let theirObj ← resolve t
  match baseObj, ourObj, theirObj with
  | some bo, some oo, some th =>
      let (merged, adds) ← merge path bo oo th
      pure (some merged.id, adds)
  | _, _, _ => pure (some o, .conflict ⟨path, none, none, none, none⟩)

/-- `both_maps()`: two maps are merged against an empty base, anything else is
a conflict. -/
def mergeAddedObjects (merge : MergeFn Id) (path : String) (o t : Id) :
    Option (Object Id) → Option (Object Id) →
      ResolvingMerge Id (Option Id × MergeAdds Id)
  | some (.node (.map oe)), some (.node (.map te)) => do
      let (merged, adds) ←
        merge path Object.emptyMap (Object.map oe) (Object.map te)
      pure (some merged.id, adds)
  | _, _ => do
      let ours ← resolveValue o
      let theirs ← resolveValue t
      pure (some o, .conflict ⟨path, ours, theirs, none, none⟩)

/-- A key both sides added, with different ids. -/
def mergeAdded (merge : MergeFn Id) (path : String) (o t : Id) :
    ResolvingMerge Id (Option Id × MergeAdds Id) := do
  let ourObj ← resolve o
  let theirObj ← resolve t
  mergeAddedObjects merge path o t ourObj theirObj

/-- A key only ours deleted, and theirs changed. -/
def mergeOursDeleted (path : String) (b t : Id) :
    ResolvingMerge Id (Option Id × MergeAdds Id) := do
  let theirs ← resolveValue t
  let base ← resolveValue b
  pure (none, .conflict ⟨path, none, theirs, base, none⟩)

/-- A key only theirs deleted, and ours changed. -/
def mergeTheirsDeleted (path : String) (b o : Id) :
    ResolvingMerge Id (Option Id × MergeAdds Id) := do
  let ours ← resolveValue o
  let base ← resolveValue b
  pure (some o, .conflict ⟨path, ours, none, base, none⟩)

def mergeKey (merge : MergeFn Id) (path : String) :
    Option Id → Option Id → Option Id →
      ResolvingMerge Id (Option Id × MergeAdds Id)
  | some b, some o, some t =>
      if o = t then pure (some o, .none)
      else if b = o then pure (some t, .none)
      else if b = t then pure (some o, .none)
      else mergeChanged merge path b o t
  | none, some o, none => pure (some o, .none)
  | none, none, some t => pure (some t, .none)
  | none, some o, some t =>
      if o = t then pure (some o, .none) else mergeAdded merge path o t
  | some b, none, some t =>
      if b = t then pure (none, .none) else mergeOursDeleted path b t
  | some b, some o, none =>
      if b = o then pure (none, .none) else mergeTheirsDeleted path b o
  | some _, none, none => pure (none, .none)
  | none, none, none => pure (none, .none)

/-- `for key in all_keys`: the map and what was added so far are carried from
key to key. -/
def mergeKeys (atKey : String → ResolvingMerge Id (Option Id × MergeAdds Id)) :
    List String → BTreeMap String Id → MergeAdds Id →
      ResolvingMerge Id (BTreeMap String Id × MergeAdds Id)
  | [], merged, adds => pure (merged, adds)
  | key :: keys, merged, adds => do
      let (id, more) ← atKey key
      mergeKeys atKey keys
        (match id with
          | some id => merged.insert key id
          | none => merged)
        (adds.append more)

def mergeMaps (merge : MergeFn Id) (path : String)
    (base ours theirs : BTreeMap String Id) :
    ResolvingMerge Id (Object Id × MergeAdds Id) := do
  let (merged, adds) ← mergeKeys
    (fun key =>
      mergeKey merge (childPath path key) base[key]? ours[key]? theirs[key]?)
    (KeyedMap.allKeys [base, ours, theirs]) ∅ .none
  pure (Object.map merged, adds.append (.create (Object.map merged)))

def mergeLists (path : String) (base ours theirs : List Id) :
    ResolvingMerge Id (Object Id × MergeAdds Id) :=
  let merged := Object.list ours
  if ours = theirs then pure (merged, .create merged)
  else
    pure (merged, (MergeAdds.conflict (objectConflict path (Object.list base)
      (Object.list ours) (Object.list theirs))).append (.create merged))

def mergeSets (ours theirs : List Id) :
    ResolvingMerge Id (Object Id × MergeAdds Id) :=
  let merged :=
    Object.set (Std.ExtTreeSet.ofList (ours ++ theirs) compare).toList
  pure (merged, .create merged)

/-- The recursive merge; the fuel bounds its depth. -/
def mergeObjects : ℕ → MergeFn Id
  | 0, _, _, _, _ => .outOfFuel
  | fuel + 1, path, base, ours, theirs =>
      if ours.partialEq theirs then pure (ours, .none)
      else if base.partialEq ours then pure (theirs, .none)
      else if base.partialEq theirs then pure (ours, .none)
      else
        match base, ours, theirs with
        | .node (.map b), .node (.map o), .node (.map t) =>
            mergeMaps (mergeObjects fuel) path b o t
        | .node (.list b), .node (.list o), .node (.list t) =>
            mergeLists path b o t
        | .node (.set _), .node (.set o), .node (.set t) => mergeSets o t
        | _, _, _ =>
            pure (ours, .conflict (objectConflict path base ours theirs))

def threeWayMergeCollect (fuel : ℕ) (base ours theirs : Id) :
    ResolvingMerge Id (MergeResult Id × List (Object Id)) :=
  if base = ours then pure (.fastForward theirs, [])
  else if base = theirs then pure (.fastForward ours, [])
  else if ours = theirs then pure (.fastForward ours, [])
  else do
    let some baseObj ← resolve base | pure (.fastForward theirs, [])
    let some oursObj ← resolve ours | pure (.fastForward theirs, [])
    let some theirsObj ← resolve theirs | pure (.fastForward ours, [])
    let (merged, adds) ← mergeObjects fuel "/" baseObj oursObj theirsObj
    pure (if adds.conflicts = [] then .success merged
      else .conflicts merged adds.conflicts, adds.created)

end ResolvingMerge

/-- Records the first id its inner resolver could not resolve. -/
def trackingResolver (inner : Id → Option (Object Id)) (missing : Option Id)
    (id : Id) : Option (Object Id) × Option Id :=
  let found := inner id
  (found, if found.isNone && missing.isNone then some id else missing)

/-- `match tracking.missing.get()`: a missing object takes the place of the
result. -/
def strictAnswer {α : Type} (out : α) : Option Id → Except Id α
  | some id => .error id
  | none => .ok out

/-- The strict merge; nothing where the fuel does not reach. -/
def ResolvingMerge.tryThreeWayMergeCollect (resolver : Id → Option (Object Id))
    (fuel : ℕ) (base ours theirs : Id) :
    Option (Except Id (MergeResult Id × List (Object Id))) :=
  let (out, missing) := runWith (trackingResolver resolver)
    (threeWayMergeCollect fuel base ours theirs) none
  out.map fun out => strictAnswer out missing

/-! ## What the tracking resolver notes -/

omit [Digest Id] in
theorem foldl_trackingResolver (inner : Id → Option (Object Id)) (ids : List Id)
    (missing : Option Id) :
    ids.foldl (fun m id => (trackingResolver inner m id).2) missing =
      missing.or (ids.find? fun id => (inner id).isNone) := by
  induction ids generalizing missing with
  | nil => simp
  | cons id ids ih =>
      rw [List.foldl_cons, ih, trackingResolver]
      cases missing with
      | some m => simp
      | none =>
          by_cases hid : (inner id).isNone = true
          · simp [hid]
          · simp [hid]

namespace ResolvingMerge

variable (resolver : Id → Option (Object Id)) (fuel : ℕ) (base ours theirs : Id)

/-- The ids the merge looks up. -/
def lookedUp : List Id :=
  asked resolver (threeWayMergeCollect fuel base ours theirs)

theorem tryThreeWayMergeCollect_eq :
    tryThreeWayMergeCollect resolver fuel base ours theirs =
      (run resolver (threeWayMergeCollect fuel base ours theirs)).map fun out =>
        strictAnswer out ((lookedUp resolver fuel base ours theirs).find?
          fun id => (resolver id).isNone) := by
  have hrun := runWith_eq (fun _ _ => rfl : ∀ missing id,
      (trackingResolver resolver missing id).1 = resolver id)
    (threeWayMergeCollect fuel base ours theirs) none
  rw [foldl_trackingResolver, Option.none_or] at hrun
  rw [tryThreeWayMergeCollect, hrun]
  rfl

variable {resolver fuel base ours theirs}

theorem tryThreeWayMergeCollect_eq_ok_iff
    {out : MergeResult Id × List (Object Id)} :
    tryThreeWayMergeCollect resolver fuel base ours theirs = some (.ok out) ↔
      Finds resolver (threeWayMergeCollect fuel base ours theirs) out := by
  rw [tryThreeWayMergeCollect_eq, Option.map_eq_some_iff]
  have hfound : (lookedUp resolver fuel base ours theirs).find?
        (fun id => (resolver id).isNone) = none ↔
      ∀ id ∈ lookedUp resolver fuel base ours theirs,
        (resolver id).isSome = true := by
    simp [List.find?_eq_none, Option.isSome_iff_ne_none]
  constructor
  · rintro ⟨out', hrun, hout⟩
    cases hmissing : (lookedUp resolver fuel base ours theirs).find? fun id =>
        (resolver id).isNone with
    | some id =>
        rw [hmissing] at hout
        cases hout
    | none =>
        rw [hmissing] at hout
        obtain rfl := Except.ok.inj hout
        exact ⟨hrun, hfound.mp hmissing⟩
  · rintro ⟨hrun, hasked⟩
    exact ⟨out, hrun, by rw [hfound.mpr hasked, strictAnswer]⟩

theorem of_tryThreeWayMergeCollect_eq_error {id : Id}
    (h : tryThreeWayMergeCollect resolver fuel base ours theirs =
      some (.error id)) :
    id ∈ lookedUp resolver fuel base ours theirs ∧ resolver id = none := by
  rw [tryThreeWayMergeCollect_eq, Option.map_eq_some_iff] at h
  obtain ⟨out, -, hout⟩ := h
  cases hmissing : (lookedUp resolver fuel base ours theirs).find? fun id =>
      (resolver id).isNone with
  | none =>
      rw [hmissing] at hout
      cases hout
  | some id' =>
      rw [hmissing] at hout
      obtain rfl := Except.error.inj hout
      exact ⟨List.mem_of_find?_eq_some hmissing,
        by simpa using List.find?_some hmissing⟩

end ResolvingMerge

/-! ## Complete trees -/

/-- Every object of the tree is resolved. -/
inductive CompleteIn (resolver : Id → Option (Object Id)) : Id → Prop where
  | intro {id : Id} {o : Object Id} (h : resolver id = some o)
      (children : ∀ c ∈ o.childIds, CompleteIn resolver c) :
      CompleteIn resolver id

/-- Every tree the object points at is complete. -/
def CompleteUnder (resolver : Id → Option (Object Id)) (o : Object Id) : Prop :=
  ∀ c ∈ o.childIds, CompleteIn resolver c

namespace ResolvingMerge

variable {resolver : Id → Option (Object Id)}

/-- From depth `n` on the merge of `oo` with complete trees finds everything,
and the depth allowed no longer matters. -/
def FindsFrom (resolver : Id → Option (Object Id)) (n : ℕ) (oo : Object Id) :
    Prop :=
  ∀ path bo th, CompleteUnder resolver bo → CompleteUnder resolver th →
    ∃ out, ∀ fuel, n ≤ fuel →
      Finds resolver (mergeObjects fuel path bo oo th) out

theorem FindsFrom.mono {n m : ℕ} {oo : Object Id} (h : FindsFrom resolver n oo)
    (hle : n ≤ m) : FindsFrom resolver m oo := by
  intro path bo th hbo hth
  obtain ⟨out, hout⟩ := h path bo th hbo hth
  exact ⟨out, fun fuel hfuel => hout fuel (hle.trans hfuel)⟩

omit [Digest Id] in
theorem finds_resolveValue {id : Id} (h : CompleteIn resolver id) :
    ∃ value, Finds resolver (resolveValue id) value := by
  cases h with
  | intro hget _ => exact ⟨_, (finds_resolve hget).bind (finds_pure _)⟩

omit [Digest Id] in
theorem completeUnder_emptyMap : CompleteUnder resolver Object.emptyMap := by
  intro c hc
  obtain ⟨key, hkey⟩ := Object.exists_getElem?_of_mem_childIds hc
  simp at hkey

/-- What our side has at a key is complete, and merges of it find everything
from depth `n` on. -/
def OursFinds (resolver : Id → Option (Object Id)) (n : ℕ) (o : Id) : Prop :=
  CompleteIn resolver o ∧
    ∃ oo, resolver o = some oo ∧ FindsFrom resolver n oo

section Keys

variable {n : ℕ} {path : String} {b o t : Id}

theorem finds_mergeChanged (hb : CompleteIn resolver b)
    (ho : OursFinds resolver n o) (ht : CompleteIn resolver t) :
    ∃ out, ∀ fuel, n ≤ fuel →
      Finds resolver (mergeChanged (mergeObjects fuel) path b o t) out := by
  obtain ⟨-, oo, ho, hfrom⟩ := ho
  cases hb with
  | @intro _ bo hb hbo =>
      cases ht with
      | @intro _ th ht hth =>
          obtain ⟨⟨merged, adds⟩, hout⟩ := hfrom path bo th hbo hth
          refine ⟨(some merged.id, adds), fun fuel hfuel => ?_⟩
          exact (finds_resolve hb).bind <| (finds_resolve ho).bind <|
            (finds_resolve ht).bind <| (hout fuel hfuel).bind (finds_pure _)

theorem finds_mergeAdded (ho : OursFinds resolver n o)
    (ht : CompleteIn resolver t) :
    ∃ out, ∀ fuel, n ≤ fuel →
      Finds resolver (mergeAdded (mergeObjects fuel) path o t) out := by
  obtain ⟨ours, hours⟩ := finds_resolveValue ho.1
  obtain ⟨theirs, htheirs⟩ := finds_resolveValue ht
  obtain ⟨-, oo, ho, hfrom⟩ := ho
  cases ht with
  | @intro _ th ht hth =>
      have hconflict : ∀ merge : MergeFn Id,
          (¬∃ oe te, oo = Object.map oe ∧ th = Object.map te) →
          Finds resolver (mergeAdded merge path o t)
            (some o, .conflict ⟨path, ours, theirs, none, none⟩) := by
        intro merge hnot
        refine (finds_resolve ho).bind ((finds_resolve ht).bind ?_)
        unfold mergeAddedObjects
        split
        next oe te hoe hte =>
          exact absurd ⟨oe, te, Option.some.inj hoe, Option.some.inj hte⟩ hnot
        next => exact hours.bind (htheirs.bind (finds_pure _))
      by_cases hmaps : ∃ oe te, oo = Object.map oe ∧ th = Object.map te
      · obtain ⟨oe, te, rfl, rfl⟩ := hmaps
        obtain ⟨⟨merged, adds⟩, hout⟩ :=
          hfrom path Object.emptyMap _ completeUnder_emptyMap hth
        refine ⟨(some merged.id, adds), fun fuel hfuel => ?_⟩
        exact (finds_resolve ho).bind <| (finds_resolve ht).bind <|
          (hout fuel hfuel).bind (finds_pure _)
      · exact ⟨_, fun fuel _ => hconflict (mergeObjects fuel) hmaps⟩

theorem finds_mergeKey {base ours theirs : Option Id}
    (hbase : ∀ b ∈ base, CompleteIn resolver b)
    (hours : ∀ o ∈ ours, OursFinds resolver n o)
    (htheirs : ∀ t ∈ theirs, CompleteIn resolver t) :
    ∃ out, ∀ fuel, n ≤ fuel →
      Finds resolver (mergeKey (mergeObjects fuel) path base ours theirs)
        out := by
  have hpure : ∀ id : Option Id, ∃ out, ∀ fuel, n ≤ fuel →
      Finds resolver
        (pure (id, .none) : ResolvingMerge Id (Option Id × MergeAdds Id)) out :=
    fun id => ⟨_, fun _ _ => finds_pure _⟩
  rcases base with _ | b <;> rcases ours with _ | o <;>
    rcases theirs with _ | t <;> simp only [mergeKey]
  · exact hpure none
  · exact hpure (some t)
  · exact hpure (some o)
  · split
    · exact hpure (some o)
    · exact finds_mergeAdded (hours o rfl) (htheirs t rfl)
  · exact hpure none
  · split
    · exact hpure none
    · obtain ⟨theirs, ht⟩ := finds_resolveValue (htheirs t rfl)
      obtain ⟨base, hb⟩ := finds_resolveValue (hbase b rfl)
      exact ⟨_, fun _ _ => ht.bind (hb.bind (finds_pure _))⟩
  · split
    · exact hpure none
    · obtain ⟨ours, ho⟩ := finds_resolveValue (hours o rfl).1
      obtain ⟨base, hb⟩ := finds_resolveValue (hbase b rfl)
      exact ⟨_, fun _ _ => ho.bind (hb.bind (finds_pure _))⟩
  · split
    · exact hpure (some o)
    split
    · exact hpure (some t)
    split
    · exact hpure (some o)
    · exact finds_mergeChanged (hbase b rfl) (hours o rfl) (htheirs t rfl)

omit [Digest Id] in
/-- The loop over the keys finds everything when each key does. -/
theorem finds_mergeKeys
    {atKey : ℕ → String → ResolvingMerge Id (Option Id × MergeAdds Id)}
    (hkey : ∀ key, ∃ out, ∀ fuel, n ≤ fuel →
      Finds resolver (atKey fuel key) out) (keys : List String)
    (merged : BTreeMap String Id) (adds : MergeAdds Id) :
    ∃ out, ∀ fuel, n ≤ fuel →
      Finds resolver (mergeKeys (atKey fuel) keys merged adds) out := by
  induction keys generalizing merged adds with
  | nil => exact ⟨_, fun _ _ => finds_pure _⟩
  | cons key keys ih =>
      obtain ⟨⟨id, more⟩, hid⟩ := hkey key
      rcases id with _ | id
      · obtain ⟨out, hout⟩ := ih merged (adds.append more)
        exact ⟨out, fun fuel hfuel => (hid fuel hfuel).bind (hout fuel hfuel)⟩
      · obtain ⟨out, hout⟩ := ih (merged.insert key id) (adds.append more)
        exact ⟨out, fun fuel hfuel => (hid fuel hfuel).bind (hout fuel hfuel)⟩

end Keys

/-- One level up: maps are merged key by key, and nothing else is looked
into. -/
theorem findsFrom_succ {n : ℕ} {oo : Object Id}
    (h : ∀ c ∈ oo.childIds, OursFinds resolver n c) :
    FindsFrom resolver (n + 1) oo := by
  intro path bo th hbo hth
  have hpure : ∀ r : Object Id × MergeAdds Id, ∃ out, ∀ fuel, n ≤ fuel →
      Finds resolver (pure r : ResolvingMerge Id (Object Id × MergeAdds Id))
        out :=
    fun r => ⟨r, fun _ _ => finds_pure r⟩
  suffices hsucc : ∃ out, ∀ fuel, n ≤ fuel →
      Finds resolver (mergeObjects (fuel + 1) path bo oo th) out by
    obtain ⟨out, hout⟩ := hsucc
    refine ⟨out, fun fuel hfuel => ?_⟩
    obtain ⟨fuel, rfl⟩ := Nat.exists_eq_add_of_le' (show 1 ≤ fuel by omega)
    exact hout fuel (by omega)
  simp only [mergeObjects]
  split
  · exact hpure _
  split
  · exact hpure _
  split
  · exact hpure _
  split
  next b o t _ _ _ =>
    have hkey : ∀ key : String, ∃ out, ∀ fuel, n ≤ fuel →
        Finds resolver (mergeKey (mergeObjects fuel) (childPath path key)
          b[key]? o[key]? t[key]?) out := fun key =>
      finds_mergeKey
        (fun x hx => hbo x (Object.mem_childIds_of_getElem? hx))
        (fun x hx => h x (Object.mem_childIds_of_getElem? hx))
        (fun x hx => hth x (Object.mem_childIds_of_getElem? hx))
    obtain ⟨⟨merged, adds⟩, hkeys⟩ :=
      finds_mergeKeys hkey (KeyedMap.allKeys [b, o, t]) ∅ .none
    exact ⟨_, fun fuel hfuel => (hkeys fuel hfuel).bind (finds_pure _)⟩
  next =>
    simp only [mergeLists]
    split <;> exact hpure _
  next => exact hpure _
  next => exact hpure _

theorem exists_oursFinds {id : Id} (h : CompleteIn resolver id) :
    ∃ n, OursFinds resolver n id := by
  induction h with
  | @intro id o hget children ih =>
      have hall : ∀ᶠ n in Filter.atTop, ∀ c ∈ o.childIds.toFinset,
          OursFinds resolver n c := by
        rw [Filter.eventually_all_finset]
        intro c hc
        obtain ⟨n, hcomplete, oc, hoc, hfrom⟩ := ih c (List.mem_toFinset.mp hc)
        exact Filter.eventually_atTop.mpr
          ⟨n, fun m hm => ⟨hcomplete, oc, hoc, hfrom.mono hm⟩⟩
      obtain ⟨n, hn⟩ := hall.exists
      exact ⟨n + 1, .intro hget children, o, hget,
        findsFrom_succ fun c hc => hn c (List.mem_toFinset.mpr hc)⟩

theorem finds_threeWayMergeCollect {base ours theirs : Id}
    (hbase : CompleteIn resolver base) (hours : CompleteIn resolver ours)
    (htheirs : CompleteIn resolver theirs) :
    ∃ n out, ∀ fuel, n ≤ fuel →
      Finds resolver (threeWayMergeCollect fuel base ours theirs) out := by
  obtain ⟨n, -, oo, ho, hfrom⟩ := exists_oursFinds hours
  cases hbase with
  | @intro _ bo hb hbo =>
      cases htheirs with
      | @intro _ th ht hth =>
          obtain ⟨⟨merged, adds⟩, hout⟩ := hfrom "/" bo th hbo hth
          unfold threeWayMergeCollect
          split
          · exact ⟨n, _, fun _ _ => finds_pure _⟩
          split
          · exact ⟨n, _, fun _ _ => finds_pure _⟩
          split
          · exact ⟨n, _, fun _ _ => finds_pure _⟩
          · exact ⟨n, _, fun fuel hfuel => (finds_resolve hb).bind <|
              (finds_resolve ho).bind <| (finds_resolve ht).bind <|
                (hout fuel hfuel).bind (finds_pure _)⟩

/-- For every resolver, the strict merge succeeds exactly where the plain one
returns and everything it looked up was resolved, with the same result; its
error names an id that was looked up and not resolved.  On three complete trees
it succeeds, however deep they are. -/
theorem tryThreeWayMergeCollect_strict (resolver : Id → Option (Object Id))
    (base ours theirs : Id) :
    (∀ fuel out, tryThreeWayMergeCollect resolver fuel base ours theirs =
        some (.ok out) ↔
      run resolver (threeWayMergeCollect fuel base ours theirs) = some out ∧
        ∀ id ∈ lookedUp resolver fuel base ours theirs,
          (resolver id).isSome = true) ∧
    (∀ fuel id, tryThreeWayMergeCollect resolver fuel base ours theirs =
        some (.error id) →
      id ∈ lookedUp resolver fuel base ours theirs ∧ resolver id = none) ∧
    (CompleteIn resolver base → CompleteIn resolver ours →
      CompleteIn resolver theirs → ∃ n out, ∀ fuel, n ≤ fuel →
        tryThreeWayMergeCollect resolver fuel base ours theirs =
          some (.ok out)) := by
  refine ⟨fun fuel out => ?_, fun fuel id =>
    of_tryThreeWayMergeCollect_eq_error, ?_⟩
  · rw [tryThreeWayMergeCollect_eq_ok_iff]
    exact ⟨fun h => ⟨h.returns, h.found⟩, fun h => ⟨h.1, h.2⟩⟩
  · intro hbase hours htheirs
    obtain ⟨n, out, hfinds⟩ :=
      finds_threeWayMergeCollect hbase hours htheirs
    exact ⟨n, out, fun fuel hfuel =>
      tryThreeWayMergeCollect_eq_ok_iff.mpr (hfinds fuel hfuel)⟩

end ResolvingMerge

end AgentStateGraph
