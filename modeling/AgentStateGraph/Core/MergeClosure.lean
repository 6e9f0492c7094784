import AgentStateGraph.Core.MergeReads

/-!
# What a merge leaves dangling: nothing

Over whole trees, everything below the root that a merge answers with is stored
already or among the nodes the merge made.
-/

namespace AgentStateGraph

open Worklist

variable {Id : Type} [Digest Id] {store : ObjectStore Id}

/-- The root a merge answers with is that of a whole tree, or of a node the
merge made, and those point at each other and at whole trees. -/
theorem sourced_threeWayMergeCollect {P : Id → Prop}
    (hclosed : ∀ x o, P x → store.get x = some o → ∀ c ∈ o.childIds, P c)
    {base ours theirs : Id} (hours : P ours) (htheirs : P theirs) :
    let m := threeWayMergeCollect store base ours theirs
    Sourced P m.2.created m.1.rootId ∧ SourcedLog P m.2 := by
  intro m
  have hnone : ∀ {r : MergeResult Id} {log : MergeLog Id}, m = (r, log) →
      log.created = [] → P r.rootId →
      Sourced P m.2.created m.1.rootId ∧ SourcedLog P m.2 := by
    intro r log hm hlog hroot
    rw [hm]
    refine ⟨Or.inl hroot, fun c hc => ?_⟩
    rw [hlog] at hc
    exact absurd hc List.not_mem_nil
  by_cases hbo : base = ours
  · exact hnone (if_pos hbo) rfl htheirs
  by_cases hbt : base = theirs
  · exact hnone ((if_neg hbo).trans (if_pos hbt)) rfl hours
  by_cases hot : ours = theirs
  · exact hnone (((if_neg hbo).trans (if_neg hbt)).trans (if_pos hot)) rfl hours
  cases hb : store.get base with
  | none =>
      have hm : m = (.fastForward theirs, .asked store [base]) := by
        simp [m, threeWayMergeCollect, hbo, hbt, hot, hb]
      exact hnone hm rfl htheirs
  | some bo =>
      cases ho : store.get ours with
      | none =>
          have hm : m = (.fastForward theirs, .asked store [ours]) := by
            simp [m, threeWayMergeCollect, hbo, hbt, hot, hb, ho]
          exact hnone hm rfl htheirs
      | some oo =>
          cases ht : store.get theirs with
          | none =>
              have hm : m = (.fastForward ours, .asked store [theirs]) := by
                simp [m, threeWayMergeCollect, hbo, hbt, hot, hb, ho, ht]
              exact hnone hm rfl hours
          | some th =>
              let r := mergeObjects store (Digest.rank ours + 1) "/" bo oo th
              have hm : m = (if r.2.conflicts = [] then .success r.1
                  else .conflicts r.1 r.2.conflicts, r.2) := by
                simp only [m, r, threeWayMergeCollect, if_neg hbo, if_neg hbt,
                  if_neg hot, hb, ho, ht]
              obtain ⟨hroot, -, hlog⟩ := sourcesFor_mergeObjects hclosed
                (Digest.rank ours + 1) "/" bo oo th
                (by rwa [ObjectStore.id_eq_of_get ho])
                (by rwa [ObjectStore.id_eq_of_get ht])
                (hclosed ours oo hours ho) (hclosed theirs th htheirs ht)
              rw [hm]
              refine ⟨?_, hlog⟩
              simp only
              split <;> exact hroot

/-- Where both sides are whole, what is reachable from the root of a merge, with
what the merge made stored, was stored or was made; so the merged tree is
whole. -/
theorem threeWayMergeCollect_closed {base ours theirs : Id}
    (ho : store.Complete ours) (ht : store.Complete theirs) :
    let m := threeWayMergeCollect store base ours theirs
    let view : ObjectStore Id := store.putAll m.2.created
    (∀ x, Reaches view.children m.1.rootId x →
      (store.get x).isSome = true ∨ ∃ o ∈ m.2.created, o.id = x) ∧
    view.Complete m.1.rootId := by
  intro m view
  have hle : store ≤ view := ObjectStore.le_putAll store m.2.created
  have hstored : ∀ o ∈ m.2.created, view.get o.id = some o := fun o hmem =>
    AddressedMap.get_putAll_of_mem Object.id_injective store hmem
  have hchild : ∀ x o, store.Complete x → store.get x = some o →
      ∀ c ∈ o.childIds, store.Complete c :=
    fun x o hx hget c hc => hx.child hget hc
  obtain ⟨hroot, hlog⟩ := @sourced_threeWayMergeCollect Id _ store
    store.Complete hchild base ours theirs ho ht
  have hsourced : ∀ x, Reaches view.children m.1.rootId x →
      Sourced store.Complete m.2.created x := by
    intro x hreach
    refine hreach.mem_of_closed ?_ hroot
    rintro y (hy | ⟨o, hmem, rfl⟩) c hc
    · obtain ⟨o, hget⟩ := hy.exists_get
      rw [ObjectStore.children_of_get (hle y o hget)] at hc
      exact Or.inl (hy.child hget hc)
    · rw [ObjectStore.children_of_get (hstored o hmem)] at hc
      exact hlog o hmem c hc
  constructor
  · intro x hreach
    rcases hsourced x hreach with hwhole | hmade
    · exact Or.inl (hwhole x (Reaches.refl _ x))
    · exact Or.inr hmade
  · intro x hreach
    rcases hsourced x hreach with hwhole | ⟨o, hmem, rfl⟩
    · obtain ⟨o, hget⟩ := hwhole.exists_get
      rw [hle x o hget]
      rfl
    · rw [hstored o hmem]
      rfl

/-! ## Two sides that add beside each other -/

namespace BothAdd

open ContentKey

def value : Object ContentKey := Object.string "x"

def base : Object ContentKey := Object.emptyMap

def ours : Object ContentKey := mapOf [("a", value)]

def theirs : Object ContentKey := mapOf [("b", value)]

def objects : ObjectStore ContentKey :=
  AddressedMap.empty.putAll [value, base, ours, theirs]

end BothAdd

open BothAdd in
set_option maxRecDepth 16384 in
theorem threeWayMergeCollect_closed_bothAdd :
    ObjectStore.Complete
      (objects.putAll
        (threeWayMergeCollect objects base.id ours.id theirs.id).2.created)
      (threeWayMergeCollect objects base.id ours.id theirs.id).1.rootId := by
  have hclosed : objects.isClosed = true := by decide
  have hours : objects.Complete ours.id :=
    ObjectStore.complete_of_isClosed hclosed (by decide)
  have htheirs : objects.Complete theirs.id :=
    ObjectStore.complete_of_isClosed hclosed (by decide)
  exact (threeWayMergeCollect_closed hours htheirs).2

end AgentStateGraph
