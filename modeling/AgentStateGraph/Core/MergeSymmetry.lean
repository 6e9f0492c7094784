import AgentStateGraph.Core.MergeReference

/-!
# Swapping the sides of a merge

The two sides of a merge are treated alike, up to which of them is kept where
they conflict.  Three things break it: a base that cannot be resolved, or two
sides that cannot, where the merge fast-forwards to one side; and two values
that compare equal and are not the same, the two zeros, of which the merge
takes ours.
-/

namespace AgentStateGraph

open KeyedMap

variable {Id : Type} [Digest Id]

/-! ## Conflicts seen from the other side -/

/-- The same conflict with the values of the two sides exchanged. -/
def Conflict.swap (c : Conflict) : Conflict :=
  { c with ours := c.theirs, theirs := c.ours }

@[simp] theorem Conflict.swap_swap (c : Conflict) : c.swap.swap = c := rfl

theorem Conflict.swap_eq_iff {c d : Conflict} : c.swap = d ↔ c = d.swap :=
  ⟨fun h => by rw [← h, swap_swap], fun h => by rw [h, swap_swap]⟩

/-- The same conflicts, each with its values exchanged. -/
def Mirrors (found found' : List Conflict) : Prop :=
  ∀ c, c ∈ found' ↔ c.swap ∈ found

theorem mirrors_nil : Mirrors [] [] := by
  intro c
  simp

theorem mirrors_singleton (c : Conflict) : Mirrors [c] [c.swap] := by
  intro d
  rw [List.mem_singleton, List.mem_singleton]
  exact ⟨fun h => by rw [h, Conflict.swap_swap], Conflict.swap_eq_iff.mp⟩

theorem Mirrors.eq_nil_iff {found found' : List Conflict}
    (h : Mirrors found found') : found' = [] ↔ found = [] := by
  rw [List.eq_nil_iff_forall_not_mem, List.eq_nil_iff_forall_not_mem]
  constructor
  · intro hnone c hc
    exact hnone c.swap ((h c.swap).mpr hc)
  · intro hnone c hc
    exact hnone c.swap ((h c).mp hc)

theorem Mirrors.flatMap {keys keys' : List String}
    {f g : String → List Conflict} (hkeys : ∀ k, k ∈ keys ↔ k ∈ keys')
    (h : ∀ k, Mirrors (f k) (g k)) :
    Mirrors (keys.flatMap f) (keys'.flatMap g) := by
  intro c
  rw [List.mem_flatMap, List.mem_flatMap]
  constructor
  · rintro ⟨k, hk, hc⟩
    exact ⟨k, (hkeys k).mpr hk, (h k c).mp hc⟩
  · rintro ⟨k, hk, hc⟩
    exact ⟨k, (hkeys k).mp hk, (h k c).mpr hc⟩

/-! ## Equal values that are not the same -/

/-- All three have the place, with three objects, and the two sides compare
equal. -/
def TwoZerosHere (store : ObjectStore Id) (base ours theirs : Option Id) : Prop :=
  ∃ b o t oo th, base = some b ∧ ours = some o ∧ theirs = some t ∧
    b ≠ o ∧ b ≠ t ∧ o ≠ t ∧ store.get b ≠ none ∧ store.get o = some oo ∧
    store.get t = some th ∧ oo.partialEq th = true

/-- There is such a place. -/
def TwoZeros (store : ObjectStore Id) (base ours theirs : Option Id) : Prop :=
  ∃ keys, TwoZerosHere store (idAtKeys store base keys)
    (idAtKeys store ours keys) (idAtKeys store theirs keys)

section TwoZeros

variable {store : ObjectStore Id} {base ours theirs : Option Id}

/-- Where two of the three agree there is no such place. -/
theorem not_twoZeros_of_eq (h : base = ours ∨ base = theirs ∨ ours = theirs) :
    ¬TwoZeros store base ours theirs := by
  rintro ⟨keys, b, o, t, oo, th, hb, ho, ht, hbo, hbt, hot, -⟩
  rcases h with rfl | rfl | rfl
  · exact hbo (Option.some.inj (hb.symm.trans ho))
  · exact hbt (Option.some.inj (hb.symm.trans ht))
  · exact hot (Option.some.inj (ho.symm.trans ht))

/-- Nor where a side has no keys and the place itself is none. -/
theorem not_twoZeros_of_keyless
    (hless : Keyless store ours ∨ Keyless store theirs ∨ Keyless store base)
    (hhere : ¬TwoZerosHere store base ours theirs) :
    ¬TwoZeros store base ours theirs := by
  rintro ⟨keys, h⟩
  cases keys with
  | nil => exact hhere h
  | cons key keys =>
      obtain ⟨b, o, t, oo, th, hb, ho, ht, -⟩ := h
      rcases hless with hless | hless | hless
      · simp only [idAtKeys, hless key, idAtKeys_none] at ho
        simp at ho
      · simp only [idAtKeys, hless key, idAtKeys_none] at ht
        simp at ht
      · simp only [idAtKeys, hless key, idAtKeys_none] at hb
        simp at hb

theorem twoZeros_iff_of_not_here
    (hhere : ¬TwoZerosHere store base ours theirs) :
    TwoZeros store base ours theirs ↔
      ∃ key, TwoZeros store (childAt store base key) (childAt store ours key)
        (childAt store theirs key) := by
  constructor
  · rintro ⟨keys, h⟩
    cases keys with
    | nil => exact absurd h hhere
    | cons key keys => exact ⟨key, keys, h⟩
  · rintro ⟨key, keys, h⟩
    exact ⟨key :: keys, h⟩

end TwoZeros

omit [Digest Id] in
theorem partialEq_comm [DecidableEq Id] (a b : Object Id) :
    a.partialEq b = b.partialEq a := by
  rcases a with x | m <;> rcases b with y | n
  · cases x <;> cases y <;>
      simp only [Object.partialEq, Atom.partialEq, F64.eq_symm] <;>
      exact Bool.beq_comm
  · rfl
  · rfl
  · exact Bool.beq_comm

omit [Digest Id] in
/-- Values that compare equal to the same one compare equal. -/
theorem partialEq_of_partialEq_both [DecidableEq Id] {a b c : Object Id}
    (ha : b.partialEq a = true) (hc : b.partialEq c = true) :
    a.partialEq c = true := by
  rcases a with x | l <;> rcases b with y | m <;> rcases c with z | n
  · cases x <;> cases y <;> cases z <;>
      simp_all [Object.partialEq, Atom.partialEq, F64.eq]
  all_goals simp_all [Object.partialEq]

/-! ## One place -/

/-- The conflicts mirror each other, and a merge without conflicts has the same
result from both sides unless the two zeros are somewhere. -/
structure SymmetricAt (zeros : Prop) (r r' : Option Id × MergeLog Id) : Prop where
  mirrors : Mirrors r.2.conflicts r'.2.conflicts
  same_iff : r.2.conflicts = [] → (r'.1 = r.1 ↔ ¬zeros)

omit [Digest Id] in
theorem symmetricAt_of_eq {zeros : Prop} (hzeros : ¬zeros) {id : Option Id}
    {log log' : MergeLog Id} (hlog : log.conflicts = [])
    (hlog' : log'.conflicts = []) : SymmetricAt zeros (id, log) (id, log') where
  mirrors := by
    rw [hlog, hlog']
    exact mirrors_nil
  same_iff _ := iff_of_true rfl hzeros

omit [Digest Id] in
theorem symmetricAt_of_conflict {zeros : Prop} {r r' : Option Id × MergeLog Id}
    {c : Conflict} (h : r.2.conflicts = [c]) (h' : r'.2.conflicts = [c.swap]) :
    SymmetricAt zeros r r' where
  mirrors := by
    rw [h, h']
    exact mirrors_singleton c
  same_iff hnone := by
    rw [h] at hnone
    contradiction

/-- What the induction over the fuel says. -/
def SymmetricFor (store : ObjectStore Id) (fuel : ℕ) : Prop :=
  ∀ (path : String) (base ours theirs : Option Id),
    (∀ x, ours = some x → Digest.rank x < fuel) →
    (∀ x, theirs = some x → Digest.rank x < fuel) →
    SymmetricAt (TwoZeros store base ours theirs)
      (mergeKey store (mergeObjects store fuel) path base ours theirs)
      (mergeKey store (mergeObjects store fuel) path base theirs ours)

section Symmetric

variable {store : ObjectStore Id}

variable {fuel : ℕ} {path : String} {o t b : Id}

theorem symmetric_maps (ih : SymmetricFor store fuel) {base : Option Id}
    {be oe te : BTreeMap String Id}
    (hbe : ∀ key, childAt store base key = be[key]?)
    (hoe : store.get o = some (Object.map oe))
    (hte : store.get t = some (Object.map te)) (hot : o ≠ t)
    (ho : Digest.rank o < fuel + 1) (ht : Digest.rank t < fuel + 1) :
    let r := mergeObjects store (fuel + 1) path (Object.map be) (Object.map oe)
      (Object.map te)
    let r' := mergeObjects store (fuel + 1) path (Object.map be) (Object.map te)
      (Object.map oe)
    SymmetricAt (TwoZeros store base (some o) (some t)) (some r.1.id, r.2)
      (some r'.1.id, r'.2) := by
  intro r r'
  obtain ⟨entries, hr, hentries, hfound, -⟩ :=
    mergeObjects_maps store fuel path be oe te
  obtain ⟨entries', hr', hentries', hfound', -⟩ :=
    mergeObjects_maps store fuel path be te oe
  have hkey : ∀ key : String, SymmetricAt
      (TwoZeros store (childAt store base key) (childAt store (some o) key)
        (childAt store (some t) key))
      (mergeKey store (mergeObjects store fuel) (childPath path key) be[key]?
        oe[key]? te[key]?)
      (mergeKey store (mergeObjects store fuel) (childPath path key) be[key]?
        te[key]? oe[key]?) := by
    intro key
    have hours : childAt store (some o) key = oe[key]? := by
      simp [childAt, hoe]
    have htheirs : childAt store (some t) key = te[key]? := by
      simp [childAt, hte]
    rw [hbe, hours, htheirs]
    apply ih
    · intro x hx
      have hlt := ObjectStore.rank_lt_of_get hoe
        (Object.mem_childIds_of_getElem? hx)
      omega
    · intro x hx
      have hlt := ObjectStore.rank_lt_of_get hte
        (Object.mem_childIds_of_getElem? hx)
      omega
  have hkeys : ∀ k, k ∈ allKeys [be, oe, te] ↔ k ∈ allKeys [be, te, oe] := by
    intro k
    simp only [mem_allKeys, List.mem_cons, List.not_mem_nil, or_false,
      exists_eq_or_imp, exists_eq_left]
    tauto
  have hmirrors : Mirrors r.2.conflicts r'.2.conflicts := by
    rw [hfound, hfound']
    exact Mirrors.flatMap hkeys fun key => (hkey key).mirrors
  refine ⟨hmirrors, fun hnone => ?_⟩
  have hclean : ∀ key : String, (mergeKey store (mergeObjects store fuel)
      (childPath path key) be[key]? oe[key]? te[key]?).2.conflicts = [] := by
    intro key
    by_cases hk : key ∈ allKeys [be, oe, te]
    · have hnone' : r.2.conflicts = [] := hnone
      rw [hfound, List.flatMap_eq_nil_iff] at hnone'
      exact hnone' key hk
    · simp only [mem_allKeys, List.mem_cons, List.not_mem_nil, or_false,
        exists_eq_or_imp, exists_eq_left, not_or, not_not] at hk
      simp [hk, mergeKey, MergeLog.empty]
  have hhere : ¬TwoZerosHere store base (some o) (some t) := by
    rintro ⟨b, o', t', oo, th, -, ho', ht', -, -, -, -, hoo, hth, heq⟩
    cases ho'
    cases ht'
    rw [hoe] at hoo
    rw [hte] at hth
    cases hoo
    cases hth
    obtain ⟨⟨x, hx⟩, -⟩ :=
      exists_atoms_of_partialEq (ne_of_get hot hoe hte) heq
    simp [Object.map] at hx
  rw [twoZeros_iff_of_not_here hhere, not_exists]
  have hids : (some r'.1.id = some r.1.id) ↔ ∀ key : String,
      entries'[key]? = entries[key]? := by
    rw [Option.some.injEq, Object.id_inj, hr, hr']
    constructor
    · intro h key
      have hmaps : entries' = entries := by simpa [Object.map] using h
      rw [hmaps]
    · intro h
      rw [Std.ExtTreeMap.ext_getElem? h]
  rw [hids]
  refine forall_congr' fun key => ?_
  rw [hentries, hentries']
  exact (hkey key).same_iff (hclean key)

theorem mergeSets_comm (ours theirs : List Id) :
    mergeSets ours theirs = mergeSets theirs ours := by
  have hsame : Std.ExtTreeSet.ofList (ours ++ theirs) compare =
      Std.ExtTreeSet.ofList (theirs ++ ours) compare := by
    refine Std.ExtTreeSet.ext_mem fun x => ?_
    rw [Std.ExtTreeSet.mem_ofList, Std.ExtTreeSet.mem_ofList,
      List.contains_iff_mem, List.contains_iff_mem, List.mem_append,
      List.mem_append]
    exact or_comm
  unfold mergeSets
  rw [hsame]

theorem symmetric_zeros {merge : MergeFn Id} {bo oo th : Object Id}
    (hbo : b ≠ o) (hbt : b ≠ t) (hot : o ≠ t) (hb : store.get b = some bo)
    (ho : store.get o = some oo) (ht : store.get t = some th)
    (heq : oo.partialEq th = true) (hr : merge path bo oo th = (oo, .empty))
    (hr' : merge path bo th oo = (th, .empty)) :
    SymmetricAt (TwoZeros store (some b) (some o) (some t))
      (mergeChanged store merge path b o t)
      (mergeChanged store merge path b t o) := by
  have hzeros : TwoZeros store (some b) (some o) (some t) :=
    ⟨[], b, o, t, oo, th, rfl, rfl, rfl, hbo, hbt, hot, by simp [hb], ho, ht,
      heq⟩
  simp only [mergeChanged, hb, ho, ht, hr, hr']
  refine ⟨mirrors_nil, fun _ => iff_of_false ?_ (not_not.mpr hzeros)⟩
  rw [Option.some.injEq, Object.id_inj]
  exact (ne_of_get hot ho ht).symm

theorem mergeChanged_missing {merge : MergeFn Id}
    (h : ¬∃ bo oo th, store.get b = some bo ∧ store.get o = some oo ∧
      store.get t = some th) :
    (mergeChanged store merge path b o t).2.conflicts =
      [⟨path, none, none, none, none⟩] := by
  unfold mergeChanged
  split
  next bo oo th hb ho ht => exact absurd ⟨bo, oo, th, hb, ho, ht⟩ h
  next => rfl

/-- A key that all three have and both sides changed. -/
theorem symmetric_changed (ih : SymmetricFor store fuel) (hbo : b ≠ o)
    (hbt : b ≠ t) (hot : o ≠ t) (ho : Digest.rank o < fuel + 1)
    (ht : Digest.rank t < fuel + 1) :
    SymmetricAt (TwoZeros store (some b) (some o) (some t))
      (mergeChanged store (mergeObjects store (fuel + 1)) path b o t)
      (mergeChanged store (mergeObjects store (fuel + 1)) path b t o) := by
  by_cases hfound : ∃ bo oo th, store.get b = some bo ∧ store.get o = some oo ∧
      store.get t = some th
  · obtain ⟨bo, oo, th, hb, hgo, hgt⟩ := hfound
    have hatom : ∀ {x : Id} {a : Atom}, store.get x = some (.atom a) →
        Keyless store (some x) := fun hx => keyless_of_get hx rfl
    by_cases h₁ : oo.partialEq th = true
    · have h₁' : th.partialEq oo = true := by rw [partialEq_comm, h₁]
      exact symmetric_zeros hbo hbt hot hb hgo hgt h₁
        (by simp [mergeObjects, h₁]) (by simp [mergeObjects, h₁'])
    have h₁' : ¬th.partialEq oo = true := by rwa [partialEq_comm]
    have hhere : ¬TwoZerosHere store (some b) (some o) (some t) := by
      rintro ⟨b', o', t', oo', th', -, ho', ht', -, -, -, -, hoo, hth, heq⟩
      cases ho'
      cases ht'
      rw [hgo] at hoo
      rw [hgt] at hth
      cases hoo
      cases hth
      exact h₁ heq
    simp only [mergeChanged, hb, hgo, hgt]
    by_cases h₂ : bo.partialEq oo = true
    · obtain ⟨-, y, rfl⟩ := exists_atoms_of_partialEq (ne_of_get hbo hb hgo) h₂
      have h₃ : ¬bo.partialEq th = true := fun h =>
        h₁ (partialEq_of_partialEq_both h₂ h)
      have hr : mergeObjects store (fuel + 1) path bo (.atom y) th =
          (th, .empty) := by simp [mergeObjects, h₁, h₂]
      have hr' : mergeObjects store (fuel + 1) path bo th (.atom y) =
          (th, .empty) := by simp [mergeObjects, h₁', h₂, h₃]
      rw [hr, hr']
      exact symmetricAt_of_eq
        (not_twoZeros_of_keyless (Or.inl (hatom hgo)) hhere) rfl rfl
    by_cases h₃ : bo.partialEq th = true
    · obtain ⟨-, y, rfl⟩ := exists_atoms_of_partialEq (ne_of_get hbt hb hgt) h₃
      have hr : mergeObjects store (fuel + 1) path bo oo (.atom y) =
          (oo, .empty) := by simp [mergeObjects, h₁, h₂, h₃]
      have hr' : mergeObjects store (fuel + 1) path bo (.atom y) oo =
          (oo, .empty) := by simp [mergeObjects, h₁', h₃]
      rw [hr, hr']
      exact symmetricAt_of_eq
        (not_twoZeros_of_keyless (Or.inr (Or.inl (hatom hgt))) hhere) rfl rfl
    rcases mergeObjects_differ store fuel path h₁ h₂ h₃ with
      ⟨be, oe, te, rfl, rfl, rfl⟩ | ⟨bs, os, ts, rfl, rfl, rfl, hr⟩ |
        ⟨hverdict, -, hcs, -⟩
    · exact symmetric_maps ih (fun key => by simp [childAt, hb]) hgo hgt hot ho
        ht
    · have hr' : mergeObjects store (fuel + 1) path (.node (.set bs))
          (.node (.set ts)) (.node (.set os)) = mergeSets ts os := by
        simp [mergeObjects, h₁', h₂, h₃]
      rw [hr, hr', mergeSets_comm ts os]
      exact symmetricAt_of_eq (not_twoZeros_of_keyless
        (Or.inl (keyless_of_get hgo rfl)) hhere) rfl rfl
    · refine symmetricAt_of_conflict (c := objectConflict path bo oo th) hcs ?_
      rcases mergeObjects_differ store fuel path h₁' h₃ h₂ with
        ⟨be, te, oe, rfl, rfl, rfl⟩ | ⟨bs, ts, os, rfl, rfl, rfl, -⟩ |
          ⟨-, -, hcs', -⟩
      · have hv := hverdict o t
        simp only [objectVerdict, if_neg h₁, if_neg h₂, if_neg h₃] at hv
        contradiction
      · have hv := hverdict o t
        simp only [objectVerdict, if_neg h₁, if_neg h₂, if_neg h₃] at hv
        contradiction
      · rw [hcs']
        rfl
  · have hfound' : ¬∃ bo th oo, store.get b = some bo ∧ store.get t = some th ∧
        store.get o = some oo := by
      rintro ⟨bo, th, oo, hb, hth, hoo⟩
      exact hfound ⟨bo, oo, th, hb, hoo, hth⟩
    exact symmetricAt_of_conflict (mergeChanged_missing hfound)
      (mergeChanged_missing hfound')

theorem symmetric_added (ih : SymmetricFor store fuel) (hot : o ≠ t)
    (ho : Digest.rank o < fuel + 1) (ht : Digest.rank t < fuel + 1) :
    SymmetricAt (TwoZeros store none (some o) (some t))
      (mergeAdded store (mergeObjects store (fuel + 1)) path o t)
      (mergeAdded store (mergeObjects store (fuel + 1)) path t o) := by
  by_cases hmaps : ∃ oe te, store.get o = some (Object.map oe) ∧
      store.get t = some (Object.map te)
  · obtain ⟨oe, te, hgo, hgt⟩ := hmaps
    simp only [mergeAdded, hgo, hgt, Object.map]
    exact symmetric_maps ih (fun key => by simp [childAt]) hgo hgt hot ho ht
  · have hadded : ∀ {x y : Id}, (¬∃ xe ye, store.get x = some (Object.map xe) ∧
        store.get y = some (Object.map ye)) →
        (mergeAdded store (mergeObjects store (fuel + 1)) path x
          y).2.conflicts = [keyConflict store path none (some x) (some y)] := by
      intro x y hnot
      unfold mergeAdded
      split
      next xe ye hx hy => exact absurd ⟨xe, ye, hx, hy⟩ hnot
      next => rfl
    have hmaps' : ¬∃ te oe, store.get t = some (Object.map te) ∧
        store.get o = some (Object.map oe) := by
      rintro ⟨te, oe, hte, hoe⟩
      exact hmaps ⟨oe, te, hoe, hte⟩
    exact symmetricAt_of_conflict (hadded hmaps) (hadded hmaps')

theorem symmetricFor_step (ih : ∀ n, fuel = n + 1 → SymmetricFor store n) :
    SymmetricFor store fuel := by
  intro path base ours theirs hours htheirs
  by_cases hot : ours = theirs
  · subst hot
    rw [mergeKey_of_ours_eq_theirs]
    exact symmetricAt_of_eq (not_twoZeros_of_eq (Or.inr (Or.inr rfl))) rfl rfl
  by_cases hbo : base = ours
  · subst hbo
    rw [mergeKey_of_base_eq_ours, mergeKey_of_base_eq_theirs]
    exact symmetricAt_of_eq (not_twoZeros_of_eq (Or.inl rfl)) rfl rfl
  by_cases hbt : base = theirs
  · subst hbt
    rw [mergeKey_of_base_eq_ours, mergeKey_of_base_eq_theirs]
    exact symmetricAt_of_eq (not_twoZeros_of_eq (Or.inr (Or.inl rfl))) rfl rfl
  rcases base with _ | b <;> rcases ours with _ | o <;> rcases theirs with _ | t
  · exact absurd rfl hot
  · exact absurd rfl hbo
  · exact absurd rfl hbt
  · have hlt := hours o rfl
    obtain ⟨n, rfl⟩ : ∃ n, fuel = n + 1 := ⟨fuel - 1, by omega⟩
    have hne : o ≠ t := fun h => hot (by rw [h])
    simp only [mergeKey, if_neg hne, if_neg hne.symm]
    exact symmetric_added (ih n rfl) hne hlt (htheirs t rfl)
  · exact absurd rfl hot
  · have hne : b ≠ t := fun h => hbt (by rw [h])
    simp only [mergeKey, if_neg hne]
    exact symmetricAt_of_conflict (c := keyConflict store path (some b) none
      (some t)) rfl rfl
  · have hne : b ≠ o := fun h => hbo (by rw [h])
    simp only [mergeKey, if_neg hne]
    exact symmetricAt_of_conflict (c := keyConflict store path (some b) (some o)
      none) rfl rfl
  · have hlt := hours o rfl
    obtain ⟨n, rfl⟩ : ∃ n, fuel = n + 1 := ⟨fuel - 1, by omega⟩
    have h₁ : o ≠ t := fun h => hot (by rw [h])
    have h₂ : b ≠ o := fun h => hbo (by rw [h])
    have h₃ : b ≠ t := fun h => hbt (by rw [h])
    simp only [mergeKey, if_neg h₁, if_neg h₁.symm, if_neg h₂, if_neg h₃]
    exact symmetric_changed (ih n rfl) h₂ h₃ h₁ hlt (htheirs t rfl)

theorem symmetricFor (fuel : ℕ) : SymmetricFor store fuel := by
  induction fuel with
  | zero => exact symmetricFor_step fun n hn => by omega
  | succ fuel ih =>
      refine symmetricFor_step ?_
      intro n hn
      obtain rfl : fuel = n := by omega
      exact ih

end Symmetric

/-! ## The whole merge -/

/-- The merge succeeds from both sides or from neither, on success with the
same root, and otherwise with the same conflicts, their values exchanged. -/
structure SymmetricMerge (store : ObjectStore Id) (base ours theirs : Id) :
    Prop where
  clean_iff : (threeWayMergeCollect store base theirs ours).1.isClean = true ↔
    (threeWayMergeCollect store base ours theirs).1.isClean = true
  rootId_eq : (threeWayMergeCollect store base ours theirs).1.isClean = true →
    (threeWayMergeCollect store base theirs ours).1.rootId =
      (threeWayMergeCollect store base ours theirs).1.rootId
  mirrors : Mirrors (threeWayMergeCollect store base ours theirs).1.reported
    (threeWayMergeCollect store base theirs ours).1.reported

/-- Two of the roots agree, or the base is stored and one of the sides is. -/
def RootsFound (store : ObjectStore Id) (base ours theirs : Id) : Prop :=
  base = ours ∨ base = theirs ∨ ours = theirs ∨
    store.get base ≠ none ∧ (store.get ours ≠ none ∨ store.get theirs ≠ none)

section Whole

variable {store : ObjectStore Id} {base ours theirs : Id}

theorem symmetricMerge_fastForward_iff {x y : Id}
    (h : (threeWayMergeCollect store base ours theirs).1 = .fastForward x)
    (h' : (threeWayMergeCollect store base theirs ours).1 = .fastForward y) :
    SymmetricMerge store base ours theirs ↔ y = x := by
  constructor
  · intro hmerge
    have heq := hmerge.rootId_eq (by rw [h]; rfl)
    rwa [h, h'] at heq
  · intro heq
    refine ⟨?_, ?_, ?_⟩
    · rw [h, h', heq]
    · intro _
      rw [h, h', heq]
    · rw [h, h']
      exact mirrors_nil

/-- Both merges go through the trees, and are those of the location of the
roots. -/
theorem threeWayMergeCollect_of_get {bo oo th : Object Id} (hbo : base ≠ ours)
    (hbt : base ≠ theirs) (hot : ours ≠ theirs) (hb : store.get base = some bo)
    (ho : store.get ours = some oo) (ht : store.get theirs = some th) {fuel : ℕ}
    (hrank : Digest.rank ours < fuel) :
    let m := threeWayMergeCollect store base ours theirs
    let r := mergeKey store (mergeObjects store fuel) "/" (some base)
      (some ours) (some theirs)
    r.1 = some m.1.rootId ∧ m.1.reported = r.2.conflicts ∧
      (m.1.isClean = true ↔ r.2.conflicts = []) := by
  intro m r
  have hfuel : mergeObjects store (Digest.rank ours + 1) "/" bo oo th =
      mergeObjects store fuel "/" bo oo th := by
    apply mergeObjects_fuel
    · rw [ObjectStore.id_eq_of_get ho]
      omega
    · rwa [ObjectStore.id_eq_of_get ho]
  have hr : r = (some (mergeObjects store fuel "/" bo oo th).1.id,
      (mergeObjects store fuel "/" bo oo th).2) := by
    simp only [r, mergeKey, if_neg hbo, if_neg hbt, if_neg hot, mergeChanged,
      hb, ho, ht]
  have hm : m = (if (mergeObjects store fuel "/" bo oo th).2.conflicts = []
      then .success (mergeObjects store fuel "/" bo oo th).1
      else .conflicts (mergeObjects store fuel "/" bo oo th).1
        (mergeObjects store fuel "/" bo oo th).2.conflicts,
      (mergeObjects store fuel "/" bo oo th).2) := by
    simp only [m, threeWayMergeCollect, if_neg hbo, if_neg hbt, if_neg hot, hb,
      ho, ht, hfuel]
  rw [hr, hm]
  by_cases hnil : (mergeObjects store fuel "/" bo oo th).2.conflicts = []
  · simp [hnil, MergeResult.rootId, MergeResult.reported, MergeResult.isClean]
  · simp [hnil, MergeResult.rootId, MergeResult.reported, MergeResult.isClean]

/-- The merge treats its sides alike exactly when two of the roots agree or it
can resolve the base and one of the sides, and, if it succeeds, no place has
two zeros that both sides put in place of another value. -/
theorem threeWayMergeCollect_symmetric (store : ObjectStore Id)
    (base ours theirs : Id) :
    SymmetricMerge store base ours theirs ↔
      RootsFound store base ours theirs ∧
      ((threeWayMergeCollect store base ours theirs).1.isClean = true →
        ¬TwoZeros store (some base) (some ours) (some theirs)) := by
  have hagreed : (base = ours ∨ base = theirs ∨ ours = theirs) →
      ¬TwoZeros store (some base) (some ours) (some theirs) := by
    rintro (rfl | rfl | rfl) <;> apply not_twoZeros_of_eq <;> simp
  by_cases hbo : base = ours
  · subst hbo
    rw [symmetricMerge_fastForward_iff (x := theirs) (y := theirs)]
    · exact iff_of_true rfl ⟨Or.inl rfl, fun _ => hagreed (Or.inl rfl)⟩
    · simp [threeWayMergeCollect]
    · by_cases hbt : base = theirs <;> simp [threeWayMergeCollect, hbt]
  by_cases hbt : base = theirs
  · subst hbt
    rw [symmetricMerge_fastForward_iff (x := ours) (y := ours)]
    · exact iff_of_true rfl ⟨Or.inr (Or.inl rfl),
        fun _ => hagreed (Or.inr (Or.inl rfl))⟩
    · simp [threeWayMergeCollect, hbo]
    · simp [threeWayMergeCollect]
  by_cases hot : ours = theirs
  · subst hot
    rw [symmetricMerge_fastForward_iff (x := ours) (y := ours)]
    · exact iff_of_true rfl ⟨Or.inr (Or.inr (Or.inl rfl)),
        fun _ => hagreed (Or.inr (Or.inr rfl))⟩
    · simp [threeWayMergeCollect, hbo]
    · simp [threeWayMergeCollect, hbo]
  have hfound : RootsFound store base ours theirs ↔ store.get base ≠ none ∧
      (store.get ours ≠ none ∨ store.get theirs ≠ none) := by
    simp [RootsFound, hbo, hbt, hot]
  have hot' : ¬theirs = ours := fun h => hot h.symm
  rw [hfound]
  cases hb : store.get base with
  | none =>
      rw [symmetricMerge_fastForward_iff (x := theirs) (y := ours)]
      · simp [hot]
      · simp [threeWayMergeCollect, hbo, hbt, hot, hb]
      · simp [threeWayMergeCollect, hbo, hbt, hot', hb]
  | some bo =>
    have hless : ∀ {x : Id}, store.get x = none → Keyless store (some x) := by
      intro x hx key
      simp [childAt, hx]
    have hmissing : (store.get ours = none ∨ store.get theirs = none) →
        ¬TwoZeros store (some base) (some ours) (some theirs) := by
      intro h
      refine not_twoZeros_of_keyless (h.elim (fun h => Or.inl (hless h))
        fun h => Or.inr (Or.inl (hless h))) ?_
      rintro ⟨b', o', t', oo', th', -, ho', ht', -, -, -, -, hoo, hth, -⟩
      cases ho'
      cases ht'
      simp [hoo, hth] at h
    cases ho : store.get ours with
    | none =>
      cases ht : store.get theirs with
      | none =>
          rw [symmetricMerge_fastForward_iff (x := theirs) (y := ours)]
          · simp [hot]
          · simp [threeWayMergeCollect, hbo, hbt, hot, hb, ho]
          · simp [threeWayMergeCollect, hbo, hbt, hot', hb, ht]
      | some th =>
          rw [symmetricMerge_fastForward_iff (x := theirs) (y := theirs)]
          · exact iff_of_true rfl ⟨by simp, fun _ => hmissing (Or.inl ho)⟩
          · simp [threeWayMergeCollect, hbo, hbt, hot, hb, ho]
          · simp [threeWayMergeCollect, hbo, hbt, hot', hb, ho, ht]
    | some oo =>
      cases ht : store.get theirs with
      | none =>
          rw [symmetricMerge_fastForward_iff (x := ours) (y := ours)]
          · exact iff_of_true rfl ⟨by simp, fun _ => hmissing (Or.inr ht)⟩
          · simp [threeWayMergeCollect, hbo, hbt, hot, hb, ho, ht]
          · simp [threeWayMergeCollect, hbo, hbt, hot', hb, ht]
      | some th =>
          have hours : Digest.rank ours <
              Digest.rank ours + Digest.rank theirs + 1 := by omega
          have htheirs : Digest.rank theirs <
              Digest.rank ours + Digest.rank theirs + 1 := by omega
          obtain ⟨hroot, hreported, hclean⟩ :=
            threeWayMergeCollect_of_get hbo hbt hot hb ho ht hours
          obtain ⟨hroot', hreported', hclean'⟩ :=
            threeWayMergeCollect_of_get hbt hbo hot' hb ht ho htheirs
          have hfor : SymmetricFor store
              (Digest.rank ours + Digest.rank theirs + 1) := symmetricFor _
          have hsymmetric := hfor "/" (some base) (some ours) (some theirs)
            (by simp) (by simp)
          have hmirrors := hsymmetric.mirrors
          have hsame := hsymmetric.same_iff
          rw [← hreported] at hmirrors hsame
          rw [← hreported'] at hmirrors
          rw [← hreported] at hclean
          rw [← hreported'] at hclean'
          rw [hroot, hroot', Option.some.injEq] at hsame
          constructor
          · intro hmerge
            refine ⟨by simp, fun h => ?_⟩
            exact (hsame (hclean.mp h)).mp (hmerge.rootId_eq h)
          · rintro ⟨-, hzeros⟩
            refine ⟨?_, ?_, hmirrors⟩
            · rw [hclean, hclean']
              exact hmirrors.eq_nil_iff
            · intro h
              exact (hsame (hclean.mp h)).mpr (hzeros h)

end Whole

/-! ## A merge that depends on the order of its sides -/

namespace Signs

open ContentKey

def withZ (f : F64) : Object ContentKey := mapOf [("z", .atom (.float f))]

def store : ObjectStore ContentKey :=
  AddressedMap.empty.putAll
    [.atom (.float F64.one), .atom (.float F64.zero),
      .atom (.float F64.negZero), withZ F64.one, withZ F64.zero,
      withZ F64.negZero]

end Signs

set_option maxRecDepth 16384 in
open Signs in
/-- One side sets a value to zero and the other to the negative zero: the merge
succeeds with the zero of the side that is ours. -/
theorem not_symmetricMerge_signs :
    ¬SymmetricMerge store (withZ F64.one).id (withZ F64.zero).id
      (withZ F64.negZero).id := by
  intro h
  have hroot := h.rootId_eq (by decide)
  revert hroot
  decide

end AgentStateGraph
