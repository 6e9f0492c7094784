import AgentStateGraph.Repo.Merging

/-!
# The integrity gate

The walk over a state tree finds an object that is pointed at and not stored
exactly when there is one.
-/

namespace AgentStateGraph

open Worklist

variable {Id : Type} [Digest Id]

theorem sum_children_le (objects : ObjectStore Id) (vertices : Finset Id) :
    ∑ x ∈ vertices, (objects.children x).length ≤
      (objects.entries.toList.map fun e => e.2.childIds.length).sum := by
  have hchildren : ∀ x, objects.children x =
      (objects.get x).elim [] fun o => o.childIds := by
    intro x
    unfold ObjectStore.children
    cases objects.get x <;> rfl
  simp only [hchildren]
  exact AddressedMap.sum_length_le objects (fun o => o.childIds) vertices

variable {objects : ObjectStore Id}

theorem missingLoop_eq_some {fuel : ℕ} {stack seen : List Id} {m : Id}
    (h : missingLoop objects fuel stack seen = some m) :
    objects.get m = none ∧ ∃ r ∈ stack, Reaches objects.children r m := by
  induction fuel generalizing stack seen with
  | zero => simp [missingLoop] at h
  | succ fuel ih =>
      cases stack with
      | nil => simp [missingLoop] at h
      | cons id stack =>
          rw [missingLoop] at h
          split at h
          · obtain ⟨hm, r, hr, hreach⟩ := ih h
            exact ⟨hm, r, List.mem_cons_of_mem _ hr, hreach⟩
          · split at h
            next hnone =>
              rw [Option.some.injEq] at h
              subst h
              exact ⟨hnone, id, List.mem_cons_self, Reaches.refl _ id⟩
            next o hget =>
              obtain ⟨hm, r, hr, hreach⟩ := ih h
              refine ⟨hm, ?_⟩
              rcases List.mem_append.mp hr with hr | hr
              · have hstep : r ∈ objects.children id := by
                  rw [ObjectStore.children_of_get hget]
                  exact List.mem_reverse.mp hr
                exact ⟨id, List.mem_cons_self,
                  (Reaches.single hstep).trans hreach⟩
              · exact ⟨r, List.mem_cons_of_mem _ hr, hreach⟩

theorem missingLoop_eq_none {vertices : Finset Id}
    (hvertices : ∀ x, (objects.get x).isSome = true → x ∈ vertices) {fuel : ℕ}
    {stack seen : List Id} (h : missingLoop objects fuel stack seen = none)
    (hfuel : exploreCost objects.children vertices seen stack < fuel)
    (hseen : ∀ x ∈ seen, (objects.get x).isSome = true ∧
      ∀ y ∈ objects.children x, y ∈ seen ∨ y ∈ stack) :
    ∀ x, x ∈ seen ∨ x ∈ stack → objects.Complete x := by
  induction fuel generalizing stack seen with
  | zero => omega
  | succ fuel ih =>
      cases stack with
      | nil =>
          intro x hx y hreach
          have hclosed : ∀ z, z ∈ seen → ∀ c ∈ objects.children z, c ∈ seen :=
            fun z hz c hc => ((hseen z hz).2 c hc).resolve_right (by simp)
          have hy := hreach.mem_of_closed hclosed (hx.resolve_right (by simp))
          exact (hseen y hy).1
      | cons id stack =>
          rw [missingLoop] at h
          split at h
          next hmem =>
            have hcost := exploreCost_pop objects.children vertices seen stack id
            intro x hx
            apply ih h (by omega)
            · intro z hz
              refine ⟨(hseen z hz).1, fun c hc => ?_⟩
              rcases (hseen z hz).2 c hc with hc | hc
              · exact Or.inl hc
              · rcases List.mem_cons.mp hc with rfl | hc
                · exact Or.inl hmem
                · exact Or.inr hc
            · rcases hx with hx | hx
              · exact Or.inl hx
              · rcases List.mem_cons.mp hx with rfl | hx
                · exact Or.inl hmem
                · exact Or.inr hx
          next hnew =>
            split at h
            next => contradiction
            next o hget =>
              have hstored : (objects.get id).isSome = true := by rw [hget]; rfl
              have hcost := exploreCost_pushAll objects.children stack
                (hvertices id hstored) hnew
              rw [ObjectStore.children_of_get hget] at hcost
              intro x hx
              apply ih h (by omega)
              · intro z hz
                rcases List.mem_cons.mp hz with rfl | hz
                · refine ⟨hstored, fun c hc => Or.inr ?_⟩
                  rw [ObjectStore.children_of_get hget] at hc
                  exact List.mem_append_left _ (List.mem_reverse.mpr hc)
                · refine ⟨(hseen z hz).1, fun c hc => ?_⟩
                  rcases (hseen z hz).2 c hc with hc | hc
                  · exact Or.inl (List.mem_cons_of_mem _ hc)
                  · rcases List.mem_cons.mp hc with rfl | hc
                    · exact Or.inl List.mem_cons_self
                    · exact Or.inr (List.mem_append_right _ hc)
              · rcases hx with hx | hx
                · exact Or.inl (List.mem_cons_of_mem _ hx)
                · rcases List.mem_cons.mp hx with rfl | hx
                  · exact Or.inl List.mem_cons_self
                  · exact Or.inr (List.mem_append_right _ hx)

/-- The gate passes a root exactly when its tree is all there. -/
theorem firstMissingReachable_eq_none_iff {root : Id} :
    firstMissingReachable objects root = none ↔ objects.Complete root := by
  constructor
  · intro h
    have hcost : exploreCost objects.children
        (objects.entries.toList.map Prod.fst).toFinset [] [root] <
          treeFuel objects := by
      have hsum := sum_children_le objects
        ((objects.entries.toList.map Prod.fst).toFinset.filter (· ∉ []))
      simp only [exploreCost, List.length_cons, List.length_nil, treeFuel]
      omega
    refine missingLoop_eq_none ?_ h hcost (by simp) root (Or.inr (by simp))
    intro x hx
    obtain ⟨o, ho⟩ := Option.isSome_iff_exists.mp hx
    exact List.mem_toFinset.mpr (List.mem_map.mpr
      ⟨(x, o), Std.ExtTreeMap.mem_toList_iff_getElem?_eq_some.mpr ho, rfl⟩)
  · intro hwhole
    by_contra hne
    obtain ⟨m, hm⟩ := Option.ne_none_iff_exists'.mp hne
    obtain ⟨hnone, r, hr, hreach⟩ := missingLoop_eq_some hm
    rw [List.mem_singleton] at hr
    subst hr
    have hstored := hwhole m hreach
    rw [hnone] at hstored
    contradiction

end AgentStateGraph
