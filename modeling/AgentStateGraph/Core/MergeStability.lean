import AgentStateGraph.Core.Merge

/-!
# What a merge depends on

The fuel of `mergeObjects` only has to exceed the rank of `ours`, and a merge
that found every object it asked for comes out the same in any larger store.
-/

namespace AgentStateGraph

variable {Id : Type}

namespace MergeLog

@[simp] theorem missing_append (a b : MergeLog Id) :
    (a.append b).missing = a.missing ++ b.missing := rfl

@[simp] theorem missing_conflict (c : Conflict) :
    (conflict c : MergeLog Id).missing = [] := rfl

@[simp] theorem missing_create (o : Object Id) :
    (create o).missing = [] := rfl

theorem missing_concat_eq_nil_iff {logs : List (MergeLog Id)} :
    (concat logs).missing = [] ↔ ∀ log ∈ logs, log.missing = [] := by
  simp [concat, List.flatMap_eq_nil_iff]

theorem missing_asked_eq_nil_iff [Digest Id] {store : ObjectStore Id} {ids : List Id} :
    (asked store ids).missing = [] ↔ ∀ id ∈ ids, store.get id ≠ none := by
  simp [asked, List.filter_eq_nil_iff]

end MergeLog

variable [Digest Id]

/-! ## Fuel -/

theorem mergeKey_congr {store : ObjectStore Id} {merge merge' : MergeFn Id}
    {path : String} {base ours theirs : Option Id}
    (h : ∀ o oo, ours = some o → store.get o = some oo →
      ∀ path b t, merge path b oo t = merge' path b oo t) :
    mergeKey store merge path base ours theirs =
      mergeKey store merge' path base ours theirs := by
  have hchanged : ∀ b o t, ours = some o →
      mergeChanged store merge path b o t =
        mergeChanged store merge' path b o t := by
    intro b o t ho
    unfold mergeChanged
    split
    next bo oo th _ hoo _ => rw [h o oo ho hoo]
    next => rfl
  have hadded : ∀ o t, ours = some o →
      mergeAdded store merge path o t = mergeAdded store merge' path o t := by
    intro o t ho
    unfold mergeAdded
    split
    next oe te hoe _ => rw [Object.map, h o _ ho hoe]
    next => rfl
  rcases base with _ | b <;> rcases ours with _ | o <;>
    rcases theirs with _ | t <;> simp only [mergeKey]
  · rw [hadded o t rfl]
  · rw [hchanged b o t rfl]

theorem mergeMaps_congr {store : ObjectStore Id} {merge merge' : MergeFn Id}
    {path : String} {base ours theirs : BTreeMap String Id}
    (h : ∀ (key : String) o oo, ours[key]? = some o → store.get o = some oo →
      ∀ path b t, merge path b oo t = merge' path b oo t) :
    mergeMaps store merge path base ours theirs =
      mergeMaps store merge' path base ours theirs := by
  have hkey : ∀ key, mergeKey store merge (childPath path key) base[key]?
      ours[key]? theirs[key]? =
        mergeKey store merge' (childPath path key) base[key]? ours[key]?
          theirs[key]? :=
    fun key => mergeKey_congr (h key)
  simp only [mergeMaps, hkey]

/-- Fuel above the rank of `ours` is enough. -/
theorem mergeObjects_fuel (store : ObjectStore Id) {n m : ℕ} {path : String}
    {base ours theirs : Object Id} (hn : Digest.rank ours.id < n)
    (hm : Digest.rank ours.id < m) :
    mergeObjects store n path base ours theirs =
      mergeObjects store m path base ours theirs := by
  induction n generalizing m path base ours theirs with
  | zero => omega
  | succ n ih =>
      obtain ⟨m, rfl⟩ : ∃ k, m = k + 1 := ⟨m - 1, by omega⟩
      simp only [mergeObjects]
      split
      · rfl
      split
      · rfl
      split
      · rfl
      split
      next b o t _ _ _ =>
        apply mergeMaps_congr
        intro key id oo hid hoo path b t
        have hchild : id ∈ (Object.node (.map o)).childIds :=
          Object.mem_childIds_of_getElem? hid
        have hrank := Object.rank_lt_of_mem_childIds hchild
        rw [← ObjectStore.id_eq_of_get hoo] at hrank
        exact ih (by omega) (by omega)
      all_goals rfl

/-! ## Growth of the store -/

section Growth

variable {store bigger : ObjectStore Id} (hle : store ≤ bigger)
include hle

variable {ids : List Id} {merge merge' : MergeFn Id} {path : String}

theorem get_eq_of_asked (h : (MergeLog.asked store ids).missing = []) {id : Id}
    (hid : id ∈ ids) : bigger.get id = store.get id :=
  AddressedMap.get_eq_of_le hle (MergeLog.missing_asked_eq_nil_iff.mp h id hid)

theorem mergeChanged_mono {b o t : Id}
    (hmerge : ∀ path b o t, (merge path b o t).2.missing = [] →
      merge' path b o t = merge path b o t)
    (h : (mergeChanged store merge path b o t).2.missing = []) :
    mergeChanged bigger merge' path b o t =
      mergeChanged store merge path b o t := by
  unfold mergeChanged at h ⊢
  split at h
  next bo oo th hb ho ht =>
    rw [hle b bo hb, hle o oo ho, hle t th ht]
    simp only [hmerge path bo oo th h]
  next hnone =>
    simp only [MergeLog.missing_append, MergeLog.missing_conflict,
      List.append_nil, MergeLog.missing_asked_eq_nil_iff] at h
    obtain ⟨bo, hb⟩ := Option.ne_none_iff_exists'.mp (h b (by simp))
    obtain ⟨oo, ho⟩ := Option.ne_none_iff_exists'.mp (h o (by simp))
    obtain ⟨th, ht⟩ := Option.ne_none_iff_exists'.mp (h t (by simp))
    exact (hnone bo oo th hb ho ht).elim

theorem asked_mono (h : (MergeLog.asked store ids).missing = []) :
    MergeLog.asked bigger ids = MergeLog.asked store ids := by
  simp only [MergeLog.asked, MergeLog.mk.injEq, true_and]
  apply List.filter_congr
  intro id hid
  rw [get_eq_of_asked hle h hid]

theorem keyConflict_mono {base ours theirs : Option Id}
    (h : (MergeLog.asked store ids).missing = []) (hbase : ∀ b ∈ base, b ∈ ids)
    (hours : ∀ o ∈ ours, o ∈ ids) (htheirs : ∀ t ∈ theirs, t ∈ ids) :
    keyConflict bigger path base ours theirs =
      keyConflict store path base ours theirs := by
  have hget : ∀ id : Option Id, (∀ i ∈ id, i ∈ ids) →
      id.bind bigger.get = id.bind store.get := by
    rintro (_ | i) hi
    · rfl
    · exact get_eq_of_asked hle h (hi i rfl)
  simp only [keyConflict, hget base hbase, hget ours hours, hget theirs htheirs]

theorem mergeAdded_mono {o t : Id}
    (hmerge : ∀ path b o t, (merge path b o t).2.missing = [] →
      merge' path b o t = merge path b o t)
    (h : (mergeAdded store merge path o t).2.missing = []) :
    mergeAdded bigger merge' path o t = mergeAdded store merge path o t := by
  by_cases hmaps : ∃ oe te, store.get o = some (.node (.map oe)) ∧
      store.get t = some (.node (.map te))
  · obtain ⟨oe, te, ho, ht⟩ := hmaps
    simp only [mergeAdded, ho, ht] at h
    simp only [mergeAdded, ho, ht, hle o _ ho, hle t _ ht, hmerge _ _ _ _ h]
  · have hstore : ∀ (s : ObjectStore Id) (m : MergeFn Id),
        s.get o = store.get o → s.get t = store.get t →
        mergeAdded s m path o t =
          (some o, (MergeLog.asked s [o, t]).append
            (.conflict (keyConflict s path none (some o) (some t)))) := by
      intro s m ho ht
      unfold mergeAdded
      split
      next oe te ho' ht' =>
        exact (hmaps ⟨oe, te, ho ▸ ho', ht ▸ ht'⟩).elim
      next => rfl
    have hasked : (MergeLog.asked store [o, t]).missing = [] := by
      simpa [hstore store merge rfl rfl] using h
    rw [hstore store merge rfl rfl,
      hstore bigger merge' (get_eq_of_asked hle hasked (by simp))
        (get_eq_of_asked hle hasked (by simp)),
      asked_mono hle hasked,
      keyConflict_mono hle hasked (by simp) (by simp) (by simp)]

theorem mergeKey_mono {base ours theirs : Option Id}
    (hmerge : ∀ path b o t, (merge path b o t).2.missing = [] →
      merge' path b o t = merge path b o t)
    (h : (mergeKey store merge path base ours theirs).2.missing = []) :
    mergeKey bigger merge' path base ours theirs =
      mergeKey store merge path base ours theirs := by
  rcases base with _ | b <;> rcases ours with _ | o <;>
    rcases theirs with _ | t <;> simp only [mergeKey] at h ⊢
  · split
    · rfl
    next hot =>
      rw [if_neg hot] at h
      exact mergeAdded_mono hle hmerge h
  · split
    · rfl
    next hbt =>
      rw [if_neg hbt] at h
      have hasked : (MergeLog.asked store [t, b]).missing = [] := by
        simpa using h
      rw [asked_mono hle hasked,
        keyConflict_mono hle hasked (by simp) (by simp) (by simp)]
  · split
    · rfl
    next hbo =>
      rw [if_neg hbo] at h
      have hasked : (MergeLog.asked store [o, b]).missing = [] := by
        simpa using h
      rw [asked_mono hle hasked,
        keyConflict_mono hle hasked (by simp) (by simp) (by simp)]
  · split
    · rfl
    next hot =>
      split
      · rfl
      next hbo =>
        split
        · rfl
        next hbt =>
          rw [if_neg hot, if_neg hbo, if_neg hbt] at h
          exact mergeChanged_mono hle hmerge h

theorem mergeMaps_mono {base ours theirs : BTreeMap String Id}
    (hmerge : ∀ path b o t, (merge path b o t).2.missing = [] →
      merge' path b o t = merge path b o t)
    (h : (mergeMaps store merge path base ours theirs).2.missing = []) :
    mergeMaps bigger merge' path base ours theirs =
      mergeMaps store merge path base ours theirs := by
  simp only [mergeMaps, MergeLog.missing_append, MergeLog.missing_create,
    List.append_nil, MergeLog.missing_concat_eq_nil_iff, List.mem_map,
    forall_exists_index, and_imp, forall_apply_eq_imp_iff₂] at h
  have hkey : ∀ key ∈ KeyedMap.allKeys [base, ours, theirs],
      mergeKey bigger merge' (childPath path key) base[key]? ours[key]?
        theirs[key]? =
      mergeKey store merge (childPath path key) base[key]? ours[key]?
        theirs[key]? :=
    fun key hmem => mergeKey_mono hle hmerge (h key hmem)
  have hlogs : ∀ {α : Type} (f : Option Id × MergeLog Id → α),
      (KeyedMap.allKeys [base, ours, theirs]).map (fun key =>
        f (mergeKey bigger merge' (childPath path key) base[key]? ours[key]?
          theirs[key]?)) =
      (KeyedMap.allKeys [base, ours, theirs]).map (fun key =>
        f (mergeKey store merge (childPath path key) base[key]? ours[key]?
          theirs[key]?)) := by
    intro α f
    apply List.map_congr_left
    intro key hmem
    rw [hkey key hmem]
  have hkeys : KeyedMap.ofKeys (KeyedMap.allKeys [base, ours, theirs])
      (fun key => (mergeKey bigger merge' (childPath path key) base[key]?
        ours[key]? theirs[key]?).1) =
      KeyedMap.ofKeys (KeyedMap.allKeys [base, ours, theirs])
      (fun key => (mergeKey store merge (childPath path key) base[key]?
        ours[key]? theirs[key]?).1) := by
    apply Std.ExtTreeMap.ext_getElem?
    intro key
    rw [KeyedMap.getElem?_ofKeys, KeyedMap.getElem?_ofKeys]
    split
    next hmem => rw [hkey key hmem]
    next => rfl
  simp only [mergeMaps, hkeys, hlogs Prod.snd]

theorem mergeObjects_mono {fuel : ℕ} {base ours theirs : Object Id}
    (h : (mergeObjects store fuel path base ours theirs).2.missing = []) :
    mergeObjects bigger fuel path base ours theirs =
      mergeObjects store fuel path base ours theirs := by
  induction fuel generalizing path base ours theirs with
  | zero => rfl
  | succ fuel ih =>
      simp only [mergeObjects] at h ⊢
      split
      · rfl
      next hot =>
        split
        · rfl
        next hbo =>
          split
          · rfl
          next hbt =>
            rw [if_neg hot, if_neg hbo, if_neg hbt] at h
            split
            next b o t =>
              exact mergeMaps_mono hle (fun path b o t h => ih h) h
            all_goals rfl

theorem tryThreeWayMergeCollect_mono {base ours theirs : Id}
    {result : MergeResult Id × List (Object Id)}
    (h : tryThreeWayMergeCollect store base ours theirs = .ok result) :
    tryThreeWayMergeCollect bigger base ours theirs = .ok result := by
  have hsame : threeWayMergeCollect bigger base ours theirs =
      threeWayMergeCollect store base ours theirs := by
    have hmissing :
        (threeWayMergeCollect store base ours theirs).2.missing = [] := by
      simp only [tryThreeWayMergeCollect] at h
      split at h
      next => contradiction
      next hnil => exact hnil
    unfold threeWayMergeCollect at hmissing ⊢
    split
    · rfl
    next hbo =>
      split
      · rfl
      next hbt =>
        split
        · rfl
        next hot =>
          simp only [if_neg hbo, if_neg hbt, if_neg hot] at hmissing
          split at hmissing
          next hb =>
            exact absurd hb (MergeLog.missing_asked_eq_nil_iff.mp hmissing _
              (by simp))
          next hb ho =>
            exact absurd ho (MergeLog.missing_asked_eq_nil_iff.mp hmissing _
              (by simp))
          next hb ho ht =>
            exact absurd ht (MergeLog.missing_asked_eq_nil_iff.mp hmissing _
              (by simp))
          next bo oo th hb ho ht =>
            rw [hle _ _ hb, hle _ _ ho, hle _ _ ht]
            simp only
            rw [mergeObjects_mono hle hmissing]
  unfold tryThreeWayMergeCollect at h ⊢
  rw [hsame]
  exact h

end Growth

/-! ## Which result -/

theorem tryThreeWayMergeCollect_eq_ok {store : ObjectStore Id}
    {base ours theirs : Id} {result : MergeResult Id}
    {created : List (Object Id)}
    (h : tryThreeWayMergeCollect store base ours theirs =
      .ok (result, created)) :
    (base = ours ∧ result = .fastForward theirs) ∨
      (base ≠ ours ∧ base = theirs ∧ result = .fastForward ours) ∨
      (base ≠ ours ∧ base ≠ theirs ∧ ours = theirs ∧
        result = .fastForward ours) ∨
      (base ≠ ours ∧ base ≠ theirs ∧ ours ≠ theirs ∧
        ∃ bo oo th, store.get base = some bo ∧ store.get ours = some oo ∧
          store.get theirs = some th ∧
          let merged := mergeObjects store (Digest.rank ours + 1) "/" bo oo th
          merged.2.missing = [] ∧ created = merged.2.created ∧
          result = if merged.2.conflicts = [] then .success merged.1
            else .conflicts merged.1 merged.2.conflicts) := by
  unfold tryThreeWayMergeCollect at h
  simp only at h
  split at h
  next => contradiction
  next hmissing =>
    simp only [Except.ok.injEq, Prod.mk.injEq] at h
    obtain ⟨hresult, hcreated⟩ := h
    unfold threeWayMergeCollect at hmissing hresult hcreated
    split at hresult
    next hbo => exact Or.inl ⟨hbo, hresult.symm⟩
    next hbo =>
      split at hresult
      next hbt => exact Or.inr (Or.inl ⟨hbo, hbt, hresult.symm⟩)
      next hbt =>
        split at hresult
        next hot =>
          exact Or.inr (Or.inr (Or.inl ⟨hbo, hbt, hot, hresult.symm⟩))
        next hot =>
          simp only [if_neg hbo, if_neg hbt, if_neg hot] at hmissing hcreated
          refine Or.inr (Or.inr (Or.inr ⟨hbo, hbt, hot, ?_⟩))
          split at hresult
          next hb =>
            simp only [hb] at hmissing
            exact absurd hb (MergeLog.missing_asked_eq_nil_iff.mp hmissing _
              (by simp))
          next hb ho =>
            simp only [hb, ho] at hmissing
            exact absurd ho (MergeLog.missing_asked_eq_nil_iff.mp hmissing _
              (by simp))
          next hb ho ht =>
            simp only [hb, ho, ht] at hmissing
            exact absurd ht (MergeLog.missing_asked_eq_nil_iff.mp hmissing _
              (by simp))
          next bo oo th hb ho ht =>
            simp only [hb, ho, ht] at hmissing hcreated
            exact ⟨bo, oo, th, hb, ho, ht, hmissing, hcreated.symm,
              hresult.symm⟩

end AgentStateGraph
