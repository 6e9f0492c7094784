import AgentStateGraph.Repo.Generations

/-!
# The merge base is a best common ancestor

A commit ranks above its parents, so the loaded ancestry of two commits has no
cycles and its generations are the lengths of the longest parent paths.  The
deepest common ancestor is therefore no proper ancestor of another.
-/

namespace AgentStateGraph

open Worklist FueledLoop LongestPath

variable {Id : Type} [Digest Id]

namespace CommitStore

/-- A common ancestor that is an ancestor of no other common ancestor. -/
structure IsBestCommonAncestor (commits : CommitStore Id) (a b c : Id) :
    Prop where
  left : commits.IsAncestor c a
  right : commits.IsAncestor c b
  best : ∀ d, commits.IsAncestor d a → commits.IsAncestor d b →
    commits.IsAncestor c d → d = c

variable {commits : CommitStore Id} {roots : List Id} {a b id : Id}

/-! ## The loaded ancestry -/

theorem mem_loadAncestry_iff :
    id ∈ loadAncestry commits roots ↔ id ∈ commits.ancestry roots := by
  rw [Std.ExtTreeMap.mem_iff_isSome_getElem?, loadAncestry,
    KeyedMap.getElem?_ofKeys]
  by_cases hid : id ∈ commits.ancestry roots <;> simp [hid]

theorem loadedParents_of_mem (h : id ∈ commits.ancestry roots) :
    loadedParents (loadAncestry commits roots) id = commits.parents id := by
  rw [loadedParents, loadAncestry, KeyedMap.getElem?_ofKeys, if_pos h,
    Option.getD_some]

theorem mem_parents_of_loaded {p : Id}
    (h : p ∈ loadedParents (loadAncestry commits roots) id) :
    p ∈ commits.parents id := by
  by_cases hid : id ∈ commits.ancestry roots
  · rwa [loadedParents_of_mem hid] at h
  · rw [loadedParents, loadAncestry, KeyedMap.getElem?_ofKeys, if_neg hid] at h
    simp at h

theorem ancestry_closed : ∀ x, x ∈ commits.ancestry roots →
    ∀ p ∈ commits.parents x, p ∈ commits.ancestry roots := by
  intro x hx p hp
  obtain ⟨r, hr, hanc⟩ := (mem_ancestry_iff commits roots x).mp hx
  exact (mem_ancestry_iff commits roots p).mpr
    ⟨r, hr, (IsAncestor.of_mem_parents hp).trans hanc⟩

theorem mem_reachableIn_loadAncestry {r : Id} (hr : r ∈ roots) :
    id ∈ reachableIn (loadAncestry commits roots) r ↔
      commits.IsAncestor id r := by
  rw [mem_reachableIn_iff]
  constructor
  · exact Reaches.mono fun _ _ => mem_parents_of_loaded
  · intro hanc
    have hroot : r ∈ commits.ancestry roots :=
      (mem_ancestry_iff commits roots r).mpr ⟨r, hr, IsAncestor.refl commits r⟩
    obtain ⟨n, hpath⟩ := exists_path_of_reaches hanc
    exact (hpath.congr (fun _ => loadedParents_of_mem) ancestry_closed
      hroot).1.reaches

theorem isGeneration_of_loaded {keys : List Id}
    (hkeys : keys.Perm (loadAncestry commits roots).keys)
    (hid : id ∈ commits.ancestry roots) :
    ∃ g, (generationsIn (loadAncestry commits roots) keys)[id]? = some g ∧
      IsGeneration commits.parents id g := by
  obtain ⟨hrec, hfound⟩ := @generationsIn_recorded _ _
    (loadAncestry commits roots) Digest.rank
    (fun _ _ hp => rank_lt_of_mem_parents (mem_parents_of_loaded hp)) keys
  have hkey : id ∈ keys := by
    rw [hkeys.mem_iff, Std.ExtTreeMap.mem_keys]
    exact mem_loadAncestry_iff.mpr hid
  obtain ⟨g, hg⟩ : ∃ g,
      (generationsIn (loadAncestry commits roots) keys)[id]? = some g :=
    Option.isSome_iff_exists.mp
      (Std.ExtTreeMap.mem_iff_isSome_getElem?.mp (hfound id hkey))
  have hlongest := hrec id g hg
  rw [IsGeneration, rootLengths_congr (fun _ => loadedParents_of_mem)
    ancestry_closed hid] at hlongest
  exact ⟨g, hg, hlongest⟩

/-! ## The deepest common ancestor -/

theorem deepestCommonAncestor_none :
    deepestCommonAncestor (loadAncestry commits [a, b]) a b = none ↔
      ¬∃ c, commits.IsAncestor c a ∧ commits.IsAncestor c b := by
  rw [deepestCommonAncestor]
  simp only [Option.map_eq_none_iff, List.max?_eq_none_iff, List.map_eq_nil_iff,
    List.filter_eq_nil_iff, decide_eq_true_eq]
  have ha : ∀ c, c ∈ reachableIn (loadAncestry commits [a, b]) a ↔
      commits.IsAncestor c a := fun _ => mem_reachableIn_loadAncestry (by simp)
  have hb : ∀ c, c ∈ reachableIn (loadAncestry commits [a, b]) b ↔
      commits.IsAncestor c b := fun _ => mem_reachableIn_loadAncestry (by simp)
  simp only [ha, hb, not_exists, not_and]

theorem deepestCommonAncestor_some {c : Id}
    (h : deepestCommonAncestor (loadAncestry commits [a, b]) a b = some c) :
    commits.IsBestCommonAncestor a b c := by
  obtain ⟨best, hmax, rfl⟩ := Option.map_eq_some_iff.mp h
  obtain ⟨hmem, hle⟩ := List.max?_eq_some_iff.mp hmax
  obtain ⟨c, hc, rfl⟩ := List.mem_map.mp hmem
  have hcommon : ∀ d, d ∈ (reachableIn (loadAncestry commits [a, b]) a).filter
        (· ∈ reachableIn (loadAncestry commits [a, b]) b) ↔
      commits.IsAncestor d a ∧ commits.IsAncestor d b := by
    intro d
    rw [List.mem_filter, mem_reachableIn_loadAncestry (by simp),
      decide_eq_true_eq, mem_reachableIn_loadAncestry (by simp)]
  have hgeneration : ∀ d, commits.IsAncestor d a →
      ∃ g, (generations (loadAncestry commits [a, b]))[d]? = some g ∧
        IsGeneration commits.parents d g := fun d hd =>
    isGeneration_of_loaded (List.Perm.refl _)
      ((mem_ancestry_iff commits [a, b] d).mpr ⟨a, by simp, hd⟩)
  obtain ⟨hca, hcb⟩ := (hcommon c).mp hc
  refine ⟨hca, hcb, ?_⟩
  intro d hda hdb hcd
  by_contra hne
  obtain ⟨gc, hgc, hlongc⟩ := hgeneration c hca
  obtain ⟨gd, hgd, hlongd⟩ := hgeneration d hda
  have hlt : gc < gd := hlongd.lt_of_reaches hlongc hcd hne
  have hbest := hle _ (List.mem_map.mpr ⟨d, (hcommon d).mpr ⟨hda, hdb⟩, rfl⟩)
  rw [hgc, hgd, Option.getD_some, Option.getD_some, Prod.Lex.toLex_le_toLex]
    at hbest
  rcases hbest with hbest | ⟨hbest, -⟩
  · exact absurd hbest hlt.asymm
  · exact absurd hbest hlt.ne'

end CommitStore

/-- The merge base of two commits is a common ancestor that is no proper
ancestor of another, and none is returned only for disjoint histories.  The
generations it is chosen by are the longest parent paths to a root, in
whatever order the commits are gone through.  Every loop behind it ends, on
cyclic parent maps too. -/
theorem findCommonAncestor_best (commits : CommitStore Id) (a b : Id) :
    (findCommonAncestor commits a b = none ↔
      ¬∃ c, commits.IsAncestor c a ∧ commits.IsAncestor c b) ∧
    (∀ c, findCommonAncestor commits a b = some c →
      commits.IsBestCommonAncestor a b c) ∧
    (∀ keys : List Id, keys.Perm (loadAncestry commits [a, b]).keys →
      ∀ id, commits.IsAncestor id a ∨ commits.IsAncestor id b →
        ∃ g, (generationsIn (loadAncestry commits [a, b]) keys)[id]? = some g ∧
          IsGeneration commits.parents id g) ∧
    Ends (exploreStep commits.parents) (commits.walkFuel [a, b]) ([b, a], []) ∧
    ∀ parents : BTreeMap Id (List Id),
      (∀ start, Ends (exploreStep (loadedParents parents))
        (ancestryFuel parents) ([start], [])) ∧
      ∀ root generation expanding, Ends (generationStep parents)
        (2 * ancestryFuel parents) ([(root, false)], generation, expanding) := by
  refine ⟨?_, ?_, ?_, ?_, fun parents =>
    ⟨reachableIn_ends parents, generationLoop_ends parents⟩⟩
  · rw [findCommonAncestor]
    split
    next heq =>
      subst heq
      simp only [reduceCtorEq, false_iff, not_not]
      exact ⟨a, .refl commits a, .refl commits a⟩
    next => exact CommitStore.deepestCommonAncestor_none
  · intro c hc
    rw [findCommonAncestor] at hc
    split at hc
    next heq =>
      subst heq
      obtain rfl := Option.some.inj hc
      exact ⟨.refl commits a, .refl commits a, fun d hda _ had =>
        hda.antisymm had⟩
    next => exact CommitStore.deepestCommonAncestor_some hc
  · intro keys hkeys id hid
    refine CommitStore.isGeneration_of_loaded hkeys
      ((CommitStore.mem_ancestry_iff commits [a, b] id).mpr ?_)
    simpa using hid
  · exact explore_ends
      (fun x _ y hy => CommitStore.parents_mem_walkVertices hy)
      (CommitStore.roots_mem_walkVertices commits [a, b])
      (CommitStore.exploreCost_walk_lt commits [a, b]).le

end AgentStateGraph
