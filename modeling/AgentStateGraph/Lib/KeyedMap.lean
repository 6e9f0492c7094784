import Mathlib

/-!
# Maps built key by key

Merging several ordered maps walks the union of their keys in order and keeps,
for each key, what a function of the key decides.
-/

namespace KeyedMap

variable {κ ν : Type} [LinearOrder κ]

/-- The order of the keys, under one name wherever a map needs it. -/
instance transCmp : Std.TransCmp (compare : κ → κ → Ordering) := inferInstance

/-- The keys of several maps, in order, each once. -/
def allKeys (maps : List (Std.ExtTreeMap κ ν compare)) : List κ :=
  (Std.ExtTreeSet.ofList (maps.flatMap fun m => m.keys) compare).toList

theorem mem_allKeys {maps : List (Std.ExtTreeMap κ ν compare)} {k : κ} :
    k ∈ allKeys maps ↔ ∃ m ∈ maps, m[k]? ≠ none := by
  rw [allKeys, Std.ExtTreeSet.mem_toList, Std.ExtTreeSet.mem_ofList]
  simp only [List.contains_iff_mem, List.mem_flatMap, Std.ExtTreeMap.mem_keys]
  simp only [Std.ExtTreeMap.mem_iff_isSome_getElem?, ne_eq,
    Option.isSome_iff_ne_none]

theorem nodup_allKeys (maps : List (Std.ExtTreeMap κ ν compare)) :
    (allKeys maps).Nodup := by
  refine (Std.ExtTreeSet.distinct_toList).imp ?_
  intro a b h
  simpa using h

/-- The map that holds `f k` at each of the keys. -/
def ofKeys (keys : List κ) (f : κ → Option ν) : Std.ExtTreeMap κ ν compare :=
  keys.foldl
    (fun m k =>
      match f k with
      | some v => m.insert k v
      | none => m)
    ∅

theorem getElem?_foldl_insert (keys : List κ) (f : κ → Option ν)
    (m : Std.ExtTreeMap κ ν compare) (k : κ) :
    (keys.foldl
      (fun m k =>
        match f k with
        | some v => m.insert k v
        | none => m) m)[k]? =
      if k ∈ keys then (f k).or m[k]? else m[k]? := by
  induction keys generalizing m with
  | nil => simp
  | cons j keys ih =>
      rw [List.foldl_cons, ih]
      by_cases hjk : j = k
      · subst hjk
        cases hf : f j with
        | none => simp
        | some v => simp
      · have hstep : (match f j with
            | some v => m.insert j v
            | none => m)[k]? = m[k]? := by
          cases f j with
          | none => rfl
          | some v => simp [Std.ExtTreeMap.getElem?_insert, hjk]
        have hmem : k ∈ j :: keys ↔ k ∈ keys := by
          simp [Ne.symm hjk]
        simp only [hstep, hmem]

theorem getElem?_ofKeys (keys : List κ) (f : κ → Option ν) (k : κ) :
    (ofKeys keys f)[k]? = if k ∈ keys then f k else none := by
  rw [ofKeys, getElem?_foldl_insert]
  simp

/-! ## Entries in order -/

theorem pairwise_keys_lt (m : Std.ExtTreeMap κ ν compare) :
    (m.toList.map Prod.fst).Pairwise (· < ·) := by
  rw [Std.ExtTreeMap.map_fst_toList_eq_keys]
  refine Std.ExtTreeMap.ordered_keys.imp ?_
  intro a b h
  exact compare_lt_iff_lt.mp h

theorem forall₂_toList {m m' : Std.ExtTreeMap κ ν compare}
    (h : ∀ k : κ, m[k]? = none ↔ m'[k]? = none) :
    List.Forall₂
      (fun x y => x.1 = y.1 ∧ m[x.1]? = some x.2 ∧ m'[x.1]? = some y.2)
      m.toList m'.toList := by
  have hmem : ∀ k, k ∈ m.toList.map Prod.fst ↔ k ∈ m'.toList.map Prod.fst := by
    intro k
    rw [Std.ExtTreeMap.map_fst_toList_eq_keys,
      Std.ExtTreeMap.map_fst_toList_eq_keys, Std.ExtTreeMap.mem_keys,
      Std.ExtTreeMap.mem_keys, Std.ExtTreeMap.mem_iff_isSome_getElem?,
      Std.ExtTreeMap.mem_iff_isSome_getElem?, Option.isSome_iff_ne_none,
      Option.isSome_iff_ne_none]
    exact not_congr (h k)
  have hkeys : m.toList.map Prod.fst = m'.toList.map Prod.fst :=
    (pairwise_keys_lt m).eq_of_mem_iff (pairwise_keys_lt m') hmem
  have hlen : m.toList.length = m'.toList.length := by
    simpa using congrArg List.length hkeys
  rw [List.forall₂_iff_get]
  refine ⟨hlen, ?_⟩
  intro i hi hi'
  have hfst : (m.toList.get ⟨i, hi⟩).1 = (m'.toList.get ⟨i, hi'⟩).1 := by
    have hget := List.getElem_of_eq hkeys (i := i) (by simpa using hi)
    rwa [List.getElem_map, List.getElem_map] at hget
  refine ⟨hfst, ?_, ?_⟩
  · exact Std.ExtTreeMap.mem_toList_iff_getElem?_eq_some.mp (List.get_mem _ _)
  · rw [hfst]
    exact Std.ExtTreeMap.mem_toList_iff_getElem?_eq_some.mp (List.get_mem _ _)

theorem toList_ofList {l : List (κ × ν)}
    (h : (l.map Prod.fst).Pairwise (· < ·)) :
    (Std.ExtTreeMap.ofList l compare).toList = l := by
  have hne : l.Pairwise fun a b => ¬compare a.1 b.1 = .eq := by
    refine (List.pairwise_map.mp h).imp ?_
    intro a b hab
    rw [compare_eq_iff_eq]
    exact hab.ne
  have : Std.Irrefl fun a b : κ × ν => a.1 < b.1 :=
    ⟨fun a => lt_irrefl a.1⟩
  refine (List.pairwise_map.mp (pairwise_keys_lt _)).eq_of_mem_iff
    (List.pairwise_map.mp h) ?_
  rintro ⟨k, v⟩
  rw [Std.ExtTreeMap.mem_toList_iff_getElem?_eq_some]
  constructor
  · intro hget
    have hk : k ∈ l.map Prod.fst := by
      by_contra hk
      rw [Std.ExtTreeMap.getElem?_ofList_of_contains_eq_false (by simpa using hk)]
        at hget
      contradiction
    obtain ⟨⟨k', v'⟩, hmem, rfl⟩ := List.mem_map.mp hk
    rw [Std.ExtTreeMap.getElem?_ofList_of_mem Std.ReflCmp.compare_self hne hmem] at hget
    simp only [Option.some.injEq] at hget
    rwa [← hget]
  · intro hmem
    exact Std.ExtTreeMap.getElem?_ofList_of_mem Std.ReflCmp.compare_self hne hmem

theorem ofList_toList (m : Std.ExtTreeMap κ ν compare) :
    Std.ExtTreeMap.ofList m.toList compare = m := by
  have hlist := toList_ofList (pairwise_keys_lt m)
  apply Std.ExtTreeMap.ext_getElem?
  intro k
  apply Option.ext
  intro v
  rw [← Std.ExtTreeMap.mem_toList_iff_getElem?_eq_some, hlist,
    Std.ExtTreeMap.mem_toList_iff_getElem?_eq_some]

theorem foldl_insert_toList (m : Std.ExtTreeMap κ ν compare) :
    m.toList.foldl (fun acc e => acc.insert e.1 e.2) ∅ = m := by
  rw [← Std.ExtTreeMap.insertMany_list_eq_foldl,
    ← Std.ExtTreeMap.ofList_eq_insertMany_empty, ofList_toList]

/-! ## Sums over entries -/

/-- Whatever keys are looked up, the entries found add up to no more than all
entries do. -/
theorem sum_le_toList (m : Std.ExtTreeMap κ ν compare) (f : ν → ℕ)
    (keys : Finset κ) :
    ∑ k ∈ keys, m[k]?.elim 0 f ≤ (m.toList.map fun e => f e.2).sum := by
  have hentries : (m.toList.map fun e => f e.2).sum =
      ∑ k ∈ (m.toList.map Prod.fst).toFinset, m[k]?.elim 0 f := by
    have hnodup : (m.toList.map Prod.fst).Nodup := by
      rw [Std.ExtTreeMap.map_fst_toList_eq_keys]
      exact Std.ExtTreeMap.nodup_keys
    rw [List.sum_toFinset _ hnodup, List.map_map]
    congr 1
    apply List.map_congr_left
    intro e he
    have hget : m[e.1]? = some e.2 :=
      Std.ExtTreeMap.mem_toList_iff_getElem?_eq_some.mp he
    simp [hget]
  rw [hentries]
  apply Finset.sum_le_sum_of_ne_zero
  intro k _ hk
  obtain ⟨v, hv⟩ : ∃ v, m[k]? = some v := by
    cases hget : m[k]? with
    | none => simp [hget] at hk
    | some v => exact ⟨v, rfl⟩
  exact List.mem_toFinset.mpr (List.mem_map.mpr
    ⟨(k, v), Std.ExtTreeMap.mem_toList_iff_getElem?_eq_some.mpr hv, rfl⟩)

end KeyedMap
