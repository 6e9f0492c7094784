import AgentStateGraph.Core.StrictMerge

/-!
# The merge over a store is the merge through its resolver

A content-addressed store is a resolver.  The merge that the repository uses,
which reads the store directly and lists the ids it missed, makes the same
object, conflicts and nodes as the merge through the resolver, and the first id
it lists is the first that the resolver did not resolve.
-/

namespace AgentStateGraph

open Resolving

variable {Id : Type} [Digest Id]

/-- What a part of the merge appended, without the ids it missed. -/
def MergeLog.adds (log : MergeLog Id) : MergeAdds Id :=
  ⟨log.conflicts, log.created⟩

/-- The first id a program asks for that the store lacks. -/
def firstMissing {α : Type} (store : ObjectStore Id) (p : ResolvingMerge Id α) :
    Option Id :=
  (asked store.get p).find? fun id => (store.get id).isNone

namespace ResolvingMerge

/-- The program returns what the part of the merge made and appended, and
misses the same id first. -/
structure Computes {α : Type} (store : ObjectStore Id)
    (p : ResolvingMerge Id (α × MergeAdds Id)) (r : α × MergeLog Id) :
    Prop where
  returns : run store.get p = some (r.1, r.2.adds)
  missing : firstMissing store p = r.2.missing.head?

/-- Two merges of three objects agree. -/
def Agrees (store : ObjectStore Id) (program : MergeFn Id)
    (merge : AgentStateGraph.MergeFn Id) (oo : Object Id) : Prop :=
  ∀ path bo th, Computes store (program path bo oo th) (merge path bo oo th)

variable {store : ObjectStore Id} {α β : Type}

theorem computes_pure (a : α) :
    Computes store (pure (a, MergeAdds.none)) (a, MergeLog.empty) := ⟨rfl, rfl⟩

theorem firstMissing_bind {p : ResolvingMerge Id α} {a : α}
    (h : run store.get p = some a) (f : α → ResolvingMerge Id β) :
    firstMissing store (p >>= f) =
      (firstMissing store p).or (firstMissing store (f a)) := by
  rw [firstMissing, asked_bind store.get h, List.find?_append]
  rfl

theorem run_resolve_bind (id : Id) (f : Option (Object Id) → ResolvingMerge Id β) :
    run store.get (resolve id >>= f) = run store.get (f (store.get id)) := rfl

theorem firstMissing_resolve_bind (id : Id)
    (f : Option (Object Id) → ResolvingMerge Id β) :
    firstMissing store (resolve id >>= f) =
      if store.get id = none then some id
      else firstMissing store (f (store.get id)) := by
  rw [firstMissing_bind (run_resolve store.get id), firstMissing, asked_resolve]
  cases hid : store.get id <;> simp [hid]

theorem Computes.child {p : ResolvingMerge Id (Object Id × MergeAdds Id)}
    {r : Object Id × MergeLog Id} (h : Computes store p r) :
    Computes store
      (do
        let (merged, adds) ← p
        pure (some merged.id, adds))
      (some r.1.id, r.2) where
  returns := by
    rw [run_bind, h.returns]
    rfl
  missing := by
    rw [firstMissing_bind h.returns, h.missing]
    exact Option.or_none

section Keys

variable {program : MergeFn Id} {merge : AgentStateGraph.MergeFn Id}
  {path : String} {b o t : Id}

theorem computes_mergeChanged
    (h : ∀ oo, store.get o = some oo → Agrees store program merge oo) :
    Computes store (mergeChanged program path b o t)
      (AgentStateGraph.mergeChanged store merge path b o t) := by
  unfold mergeChanged AgentStateGraph.mergeChanged
  cases hb : store.get b with
  | none =>
      refine ⟨?_, ?_⟩
      · simp only [run_resolve_bind, hb]
        rfl
      · simp [firstMissing_resolve_bind, hb, MergeLog.asked]
  | some bo =>
      cases ho : store.get o with
      | none =>
          refine ⟨?_, ?_⟩
          · simp only [run_resolve_bind, hb, ho]
            rfl
          · simp [firstMissing_resolve_bind, hb, ho, MergeLog.asked]
      | some oo =>
          cases ht : store.get t with
          | none =>
              refine ⟨?_, ?_⟩
              · simp only [run_resolve_bind, hb, ho, ht]
                rfl
              · simp [firstMissing_resolve_bind, hb, ho, ht, MergeLog.asked]
          | some th =>
              have hchild := (h oo ho path bo th).child
              refine ⟨?_, ?_⟩
              · simp only [run_resolve_bind, hb, ho, ht]
                exact hchild.returns
              · simp only [firstMissing_resolve_bind, hb, ho, ht, reduceCtorEq,
                  if_false]
                exact hchild.missing

theorem computes_addedConflict :
    Computes store
      (do
        let ours ← resolveValue o
        let theirs ← resolveValue t
        pure (some o, MergeAdds.conflict ⟨path, ours, theirs, none, none⟩))
      (some o, (MergeLog.asked store [o, t]).append
        (.conflict (keyConflict store path none (some o) (some t)))) where
  returns := rfl
  missing := by
    cases ho : store.get o <;> cases ht : store.get t <;>
      simp [firstMissing, resolveValue, asked_bind, run_bind, ho, ht,
        MergeLog.asked]

theorem computes_mergeAdded
    (h : ∀ oo, store.get o = some oo → Agrees store program merge oo) :
    Computes store (mergeAdded program path o t)
      (AgentStateGraph.mergeAdded store merge path o t) := by
  unfold AgentStateGraph.mergeAdded
  split
  next oe te ho ht =>
    have hchild := (h _ ho path Object.emptyMap (Object.map te)).child
    refine ⟨?_, ?_⟩
    · simp only [mergeAdded, run_resolve_bind, ho, ht]
      exact hchild.returns
    · simp only [mergeAdded, firstMissing_resolve_bind, ho, ht, reduceCtorEq,
        if_false]
      exact hchild.missing
  next hnot =>
    have hconflict := @computes_addedConflict _ _ store path o t
    have hobjects : mergeAddedObjects program path o t (store.get o)
        (store.get t) =
        (do
          let ours ← resolveValue o
          let theirs ← resolveValue t
          pure (some o, MergeAdds.conflict ⟨path, ours, theirs, none, none⟩)) := by
      unfold mergeAddedObjects
      split
      next oe te ho ht => exact absurd ht (hnot oe te ho)
      next => rfl
    refine ⟨?_, ?_⟩
    · simp only [mergeAdded, run_resolve_bind, hobjects]
      exact hconflict.returns
    · simp only [mergeAdded, firstMissing_resolve_bind, hobjects,
        hconflict.missing]
      cases ho : store.get o with
      | none => simp [ho, MergeLog.asked]
      | some oo => cases ht : store.get t <;> simp [ho, ht, MergeLog.asked]

theorem computes_mergeOursDeleted :
    Computes store (mergeOursDeleted path b t)
      (none, (MergeLog.asked store [t, b]).append
        (.conflict (keyConflict store path (some b) none (some t)))) where
  returns := rfl
  missing := by
    cases hb : store.get b <;> cases ht : store.get t <;>
      simp [firstMissing, mergeOursDeleted, resolveValue, asked_bind, run_bind,
        hb, ht, MergeLog.asked]

theorem computes_mergeTheirsDeleted :
    Computes store (mergeTheirsDeleted path b o)
      (some o, (MergeLog.asked store [o, b]).append
        (.conflict (keyConflict store path (some b) (some o) none))) where
  returns := rfl
  missing := by
    cases hb : store.get b <;> cases ho : store.get o <;>
      simp [firstMissing, mergeTheirsDeleted, resolveValue, asked_bind,
        run_bind, hb, ho, MergeLog.asked]

theorem computes_mergeKey {base ours theirs : Option Id}
    (h : ∀ o ∈ ours, ∀ oo, store.get o = some oo →
      Agrees store program merge oo) :
    Computes store (mergeKey program path base ours theirs)
      (AgentStateGraph.mergeKey store merge path base ours theirs) := by
  rcases base with _ | b <;> rcases ours with _ | o <;>
    rcases theirs with _ | t <;>
    simp only [mergeKey, AgentStateGraph.mergeKey]
  · exact computes_pure _
  · exact computes_pure _
  · exact computes_pure _
  · split
    · exact computes_pure _
    · exact computes_mergeAdded (h o rfl)
  · exact computes_pure _
  · split
    · exact computes_pure _
    · exact computes_mergeOursDeleted
  · split
    · exact computes_pure _
    · exact computes_mergeTheirsDeleted
  · split
    · exact computes_pure _
    split
    · exact computes_pure _
    split
    · exact computes_pure _
    · exact computes_mergeChanged (h o rfl)

end Keys

/-! ## Maps and objects -/

theorem computes_mergeKeys
    {atKey : String → ResolvingMerge Id (Option Id × MergeAdds Id)}
    {key : String → Option Id × MergeLog Id}
    (h : ∀ k, Computes store (atKey k) (key k)) (keys : List String)
    (merged : BTreeMap String Id) (adds : MergeAdds Id) :
    run store.get (mergeKeys atKey keys merged adds) =
        some (keys.foldl
            (fun m k =>
              match (key k).1 with
              | some id => m.insert k id
              | none => m) merged,
          adds.append (MergeLog.concat (keys.map fun k => (key k).2)).adds) ∧
      firstMissing store (mergeKeys atKey keys merged adds) =
        (MergeLog.concat (keys.map fun k => (key k).2)).missing.head? := by
  induction keys generalizing merged adds with
  | nil =>
      refine ⟨?_, rfl⟩
      simp [mergeKeys, MergeLog.concat, MergeLog.adds, MergeAdds.append]
  | cons k keys ih =>
      obtain ⟨hreturns, hmissing⟩ := h k
      obtain ⟨hrun, hfirst⟩ := ih
        (match (key k).1 with
          | some id => merged.insert k id
          | none => merged)
        (adds.append (key k).2.adds)
      constructor
      · rw [mergeKeys, run_bind, hreturns, Option.bind_some]
        refine hrun.trans ?_
        simp [MergeLog.concat, MergeLog.adds, MergeAdds.append]
      · rw [mergeKeys, firstMissing_bind hreturns, hmissing]
        refine (congrArg (Option.or _) hfirst).trans ?_
        simp [MergeLog.concat, List.head?_append]

theorem computes_mergeMaps {program : MergeFn Id}
    {merge : AgentStateGraph.MergeFn Id} {path : String}
    {b o t : BTreeMap String Id}
    (h : ∀ (key : String), ∀ x ∈ o[key]?, ∀ oo, store.get x = some oo →
      Agrees store program merge oo) :
    Computes store (mergeMaps program path b o t)
      (AgentStateGraph.mergeMaps store merge path b o t) := by
  obtain ⟨hrun, hfirst⟩ := computes_mergeKeys
    (fun key : String => @computes_mergeKey _ _ store program merge
      (childPath path key) b[key]? o[key]? t[key]? (h key))
    (KeyedMap.allKeys [b, o, t]) ∅ .none
  refine ⟨?_, ?_⟩
  · rw [mergeMaps, run_bind, hrun]
    rfl
  · rw [mergeMaps, firstMissing_bind hrun, hfirst]
    simp [AgentStateGraph.mergeMaps, firstMissing]

theorem agrees_mergeObjects {fuel : ℕ} {oo : Object Id}
    (hrank : Digest.rank oo.id < fuel) :
    Agrees store (mergeObjects fuel)
      (AgentStateGraph.mergeObjects store fuel) oo := by
  induction fuel generalizing oo with
  | zero => omega
  | succ fuel ih =>
      intro path bo th
      simp only [mergeObjects, AgentStateGraph.mergeObjects]
      split
      · exact computes_pure _
      split
      · exact computes_pure _
      split
      · exact computes_pure _
      split
      next b o t _ _ _ =>
        refine computes_mergeMaps fun key x hx oo hoo => ih ?_
        have hchild : x ∈ (Object.node (.map o)).childIds :=
          Object.mem_childIds_of_getElem? hx
        have hlt := Object.rank_lt_of_mem_childIds hchild
        rw [← ObjectStore.id_eq_of_get hoo] at hlt
        omega
      next b o t _ _ _ =>
        simp only [mergeLists, AgentStateGraph.mergeLists]
        split <;> exact ⟨rfl, rfl⟩
      next => exact ⟨rfl, rfl⟩
      next hmaps hlists hsets =>
        -- One split is enough where both merges match by one function.
        first
        | exact ⟨rfl, rfl⟩
        | split
          next b o t _ _ _ => exact absurd rfl (hmaps b o t rfl rfl)
          next b o t _ _ _ => exact absurd rfl (hlists b o t rfl rfl)
          next b o t _ _ _ => exact absurd rfl (hsets b o t rfl rfl)
          next => exact ⟨rfl, rfl⟩

/-- Over a store, the strict merge through the resolver is the strict merge of
the store. -/
theorem tryThreeWayMergeCollect_store {fuel : ℕ} {base ours theirs : Id}
    (hrank : Digest.rank ours < fuel) :
    tryThreeWayMergeCollect store.get fuel base ours theirs =
      some (AgentStateGraph.tryThreeWayMergeCollect store base ours
        theirs) := by
  suffices h : run store.get (threeWayMergeCollect fuel base ours theirs) =
        some ((AgentStateGraph.threeWayMergeCollect store base ours theirs).1,
          (AgentStateGraph.threeWayMergeCollect store base ours
            theirs).2.created) ∧
      firstMissing store (threeWayMergeCollect fuel base ours theirs) =
        (AgentStateGraph.threeWayMergeCollect store base ours
          theirs).2.missing.head? by
    rw [tryThreeWayMergeCollect_eq, h.1, Option.map_some]
    have hfirst := h.2
    unfold firstMissing at hfirst
    rw [lookedUp, hfirst, AgentStateGraph.tryThreeWayMergeCollect]
    cases hmissing : (AgentStateGraph.threeWayMergeCollect store base ours
        theirs).2.missing <;> simp [strictAnswer, hmissing]
  unfold threeWayMergeCollect AgentStateGraph.threeWayMergeCollect
  split
  · exact ⟨rfl, rfl⟩
  split
  · exact ⟨rfl, rfl⟩
  split
  · exact ⟨rfl, rfl⟩
  cases hb : store.get base with
  | none =>
      simp [run_resolve_bind, firstMissing_resolve_bind, hb, MergeLog.asked]
  | some bo =>
      cases ho : store.get ours with
      | none =>
          simp [run_resolve_bind, firstMissing_resolve_bind, hb, ho,
            MergeLog.asked]
      | some oo =>
          cases ht : store.get theirs with
          | none =>
              simp [run_resolve_bind, firstMissing_resolve_bind, hb, ho, ht,
                MergeLog.asked]
          | some th =>
              have hagrees : Agrees store (mergeObjects fuel)
                  (AgentStateGraph.mergeObjects store (Digest.rank ours + 1))
                  oo := by
                have hid : oo.id = ours := ObjectStore.id_eq_of_get ho
                rw [← hid] at hrank ⊢
                intro path bo th
                rw [mergeObjects_fuel store (Nat.lt_succ_self _) hrank]
                exact agrees_mergeObjects hrank path bo th
              obtain ⟨hreturns, hmissing⟩ := hagrees "/" bo th
              simp only [run_resolve_bind, firstMissing_resolve_bind, hb, ho,
                ht, reduceCtorEq, if_false]
              rw [run_bind, hreturns, firstMissing_bind hreturns, hmissing]
              exact ⟨rfl, Option.or_none⟩

end ResolvingMerge

end AgentStateGraph
