import AgentStateGraph.Core.MergeReference

/-!
# What a merge reads

A merge reads both sides where they differ, and of the base only the objects
where the three are pairwise different.  What it stores points at the sides
and at other objects it stores, never at the base.
-/

namespace AgentStateGraph

variable {Id : Type} [Digest Id]

/-- The objects of the base that a merge looks at, from the roots down. -/
inductive ReadFromBase (store : ObjectStore Id) :
    Option Id → Option Id → Option Id → Id → Prop where
  | here {b : Id} {ours theirs : Option Id} (hbo : some b ≠ ours)
      (hbt : some b ≠ theirs) (hot : ours ≠ theirs) :
      ReadFromBase store (some b) ours theirs b
  | entry {b o t x : Id} {be oe te : BTreeMap String Id} {key : String}
      (hbo : b ≠ o) (hbt : b ≠ t) (hot : o ≠ t)
      (hb : store.get b = some (Object.map be))
      (ho : store.get o = some (Object.map oe))
      (ht : store.get t = some (Object.map te))
      (h : ReadFromBase store be[key]? oe[key]? te[key]? x) :
      ReadFromBase store (some b) (some o) (some t) x

/-! ## Which objects of the base are needed -/

theorem missing_mergeObjects_of_not_maps (store : ObjectStore Id) (fuel : ℕ)
    (path : String) {bo oo th : Object Id}
    (h : ¬∃ b o t, bo = Object.map b ∧ oo = Object.map o ∧ th = Object.map t) :
    (mergeObjects store fuel path bo oo th).2.missing = [] := by
  cases fuel with
  | zero => rfl
  | succ fuel =>
      simp only [mergeObjects]
      split
      · rfl
      split
      · rfl
      split
      · rfl
      split
      next b o t _ _ _ => exact absurd ⟨b, o, t, rfl, rfl, rfl⟩ h
      next =>
        simp only [mergeLists]
        split <;> rfl
      next => rfl
      next => rfl

theorem missing_threeWayMergeCollect_iff (store : ObjectStore Id)
    (base ours theirs : Id) :
    (threeWayMergeCollect store base ours theirs).2.missing = [] ↔
      (mergeKey store (mergeObjects store (Digest.rank ours + 1)) "/"
        (some base) (some ours) (some theirs)).2.missing = [] := by
  by_cases hbo : base = ours
  · subst hbo
    simp [threeWayMergeCollect, mergeKey_of_base_eq_ours]
  by_cases hbt : base = theirs
  · subst hbt
    simp [threeWayMergeCollect, mergeKey_of_base_eq_theirs, hbo]
  by_cases hot : ours = theirs
  · subst hot
    simp [threeWayMergeCollect, mergeKey_of_ours_eq_theirs, hbo]
  simp only [threeWayMergeCollect, mergeKey, if_neg hbo, if_neg hbt,
    if_neg hot]
  unfold mergeChanged
  cases hb : store.get base with
  | none => simp [MergeLog.asked, hb]
  | some bo =>
      cases ho : store.get ours with
      | none => simp [MergeLog.asked, hb, ho]
      | some oo =>
          cases ht : store.get theirs with
          | none => simp [MergeLog.asked, hb, ho, ht]
          | some th => rfl

section Swept

variable {store swept : ObjectStore Id} (hle : swept ≤ store) {P : Id → Prop}
  (hkept : ∀ x, P x → swept.get x = store.get x)
  (hclosed : ∀ x o, P x → store.get x = some o → ∀ c ∈ o.childIds, P c)

/-- Within some fuel, a merge over kept sides finds in the swept store what it
found in the full one, exactly when the base's objects that it reads are
there. -/
def NeedsBase (store swept : ObjectStore Id) (P : Id → Prop) (fuel : ℕ) :
    Prop :=
  ∀ path base ours theirs, (∀ o ∈ ours, P o ∧ Digest.rank o < fuel) →
    (∀ t ∈ theirs, P t) →
    (mergeKey store (mergeObjects store fuel) path base ours
      theirs).2.missing = [] →
    ((mergeKey swept (mergeObjects swept fuel) path base ours
      theirs).2.missing = [] ↔
      ∀ x, ReadFromBase store base ours theirs x →
        (swept.get x).isSome = true)

include hclosed in
theorem missing_maps_iff {fuel : ℕ} (ih : NeedsBase store swept P fuel)
    (path : String) (b : BTreeMap String Id) {oid tid : Id}
    {o t : BTreeMap String Id} (hoid : P oid) (htid : P tid)
    (ho : store.get oid = some (Object.map o))
    (ht : store.get tid = some (Object.map t))
    (hrank : Digest.rank oid < fuel + 1)
    (hmissing : (mergeObjects store (fuel + 1) path (Object.map b)
      (Object.map o) (Object.map t)).2.missing = []) :
    (mergeObjects swept (fuel + 1) path (Object.map b) (Object.map o)
        (Object.map t)).2.missing = [] ↔
      ∀ (key : String) x, ReadFromBase store b[key]? o[key]? t[key]? x →
        (swept.get x).isSome = true := by
  obtain ⟨-, -, -, -, -, hstore, -⟩ :=
    mergeObjects_maps store fuel path b o t
  obtain ⟨-, -, -, -, -, hswept, -⟩ :=
    mergeObjects_maps swept fuel path b o t
  rw [hswept]
  refine forall_congr' fun key => ?_
  apply ih
  · intro x hx
    have hchild : x ∈ (Object.map o).childIds :=
      Object.mem_childIds_of_getElem? hx
    have hlt := ObjectStore.rank_lt_of_get ho hchild
    exact ⟨hclosed oid _ hoid ho x hchild, by omega⟩
  · intro x hx
    exact hclosed tid _ htid ht x (Object.mem_childIds_of_getElem? hx)
  · exact hstore.mp hmissing key

include hkept

theorem missing_asked_of_kept {ids : List Id} (hids : ∀ x ∈ ids, P x)
    (h : (MergeLog.asked store ids).missing = []) :
    (MergeLog.asked swept ids).missing = [] := by
  rw [MergeLog.missing_asked_eq_nil_iff] at h ⊢
  intro x hx
  rw [hkept x (hids x hx)]
  exact h x hx

include hclosed

theorem missing_added {fuel : ℕ} (ih : NeedsBase store swept P fuel)
    (path : String) {o t : Id} (ho : P o) (ht : P t)
    (hrank : Digest.rank o < fuel + 1)
    (hmissing : (mergeAdded store (mergeObjects store (fuel + 1)) path o
      t).2.missing = []) :
    (mergeAdded swept (mergeObjects swept (fuel + 1)) path o
      t).2.missing = [] := by
  unfold mergeAdded at hmissing ⊢
  rw [hkept o ho, hkept t ht]
  split at hmissing
  next oe te hoo hth =>
    apply (missing_maps_iff hclosed ih path ∅ ho ht hoo hth hrank
      hmissing).mpr
    intro key x hx
    rw [Std.ExtTreeMap.getElem?_empty] at hx
    cases hx
  next hnot =>
    have hasked : (MergeLog.asked store [o, t]).missing = [] := by
      simpa using hmissing
    have hkeptAsked := missing_asked_of_kept hkept
      (show ∀ x ∈ [o, t], P x by simp [ho, ht]) hasked
    simpa using hkeptAsked

omit hclosed in
/-- A key that one side deleted and the other changed asks for the base. -/
theorem missing_deleted_iff {b x : Id} {ours theirs : Option Id}
    {c c' : Conflict} (hx : P x) (hbo : some b ≠ ours) (hbt : some b ≠ theirs)
    (hot : ours ≠ theirs) (hside : ours = none ∨ theirs = none)
    (h : ((MergeLog.asked store [x, b]).append (.conflict c)).missing = []) :
    ((MergeLog.asked swept [x, b]).append (.conflict c')).missing = [] ↔
      ∀ y, ReadFromBase store (some b) ours theirs y →
        (swept.get y).isSome = true := by
  simp only [MergeLog.missing_append, MergeLog.missing_conflict,
    List.append_nil, MergeLog.missing_asked_eq_nil_iff, List.mem_cons,
    List.not_mem_nil, or_false, forall_eq_or_imp, forall_eq] at h ⊢
  rw [hkept x hx]
  constructor
  · rintro ⟨-, hb⟩ y hy
    cases hy with
    | here => exact Option.isSome_iff_ne_none.mpr hb
    | entry => simp at hside
  · intro hall
    exact ⟨h.1, Option.isSome_iff_ne_none.mp (hall b (.here hbo hbt hot))⟩

include hle

/-- A key that all three have and both sides changed. -/
theorem missing_changed_iff {fuel : ℕ} (ih : NeedsBase store swept P fuel)
    (path : String) {b o t : Id} (hbo : b ≠ o) (hbt : b ≠ t) (hot : o ≠ t)
    (ho : P o) (ht : P t) (hrank : Digest.rank o < fuel + 1)
    (hmissing : (mergeChanged store (mergeObjects store (fuel + 1)) path b o
      t).2.missing = []) :
    (mergeChanged swept (mergeObjects swept (fuel + 1)) path b o
        t).2.missing = [] ↔
      ∀ x, ReadFromBase store (some b) (some o) (some t) x →
        (swept.get x).isSome = true := by
  have hhere : ReadFromBase store (some b) (some o) (some t) b :=
    .here (by simpa using hbo) (by simpa using hbt) (by simpa using hot)
  unfold mergeChanged at hmissing
  split at hmissing
  next bo oo th hb hoo hth =>
    simp only at hmissing
    cases hsb : swept.get b with
    | none =>
        simp only [mergeChanged, hsb]
        constructor
        · intro h
          simp [MergeLog.asked, hsb] at h
        · intro h
          simpa [hsb] using h b hhere
    | some bo' =>
        have hbo' : bo' = bo := by
          have := hle b bo' hsb
          exact Option.some.inj (this.symm.trans hb)
        subst hbo'
        simp only [mergeChanged, hsb, hkept o ho, hkept t ht, hoo, hth]
        by_cases hmaps : ∃ be oe te, bo' = Object.map be ∧
            oo = Object.map oe ∧ th = Object.map te
        · obtain ⟨be, oe, te, rfl, rfl, rfl⟩ := hmaps
          rw [missing_maps_iff hclosed ih path be ho ht hoo hth hrank
            hmissing]
          constructor
          · intro h x hx
            cases hx with
            | here => rw [hsb]; rfl
            | entry _ _ _ hb' ho' ht' hx =>
                rw [hb, Option.some.injEq, Object.map, Object.map] at hb'
                rw [hoo, Option.some.injEq, Object.map, Object.map] at ho'
                rw [hth, Option.some.injEq, Object.map, Object.map] at ht'
                cases hb'
                cases ho'
                cases ht'
                exact h _ x hx
          · intro h key x hx
            exact h x (.entry hbo hbt hot hb hoo hth hx)
        · simp only [missing_mergeObjects_of_not_maps swept (fuel + 1) path
            hmaps, true_iff]
          intro x hx
          cases hx with
          | here => rw [hsb]; rfl
          | entry _ _ _ hb' ho' ht' _ =>
              exact absurd ⟨_, _, _, Option.some.inj (hb.symm.trans hb'),
                Option.some.inj (hoo.symm.trans ho'),
                Option.some.inj (hth.symm.trans ht')⟩ hmaps
  next hnone =>
    simp only [MergeLog.missing_append, MergeLog.missing_conflict,
      List.append_nil, MergeLog.missing_asked_eq_nil_iff] at hmissing
    obtain ⟨bo, hb⟩ := Option.ne_none_iff_exists'.mp (hmissing b (by simp))
    obtain ⟨oo, hoo⟩ := Option.ne_none_iff_exists'.mp (hmissing o (by simp))
    obtain ⟨th, hth⟩ := Option.ne_none_iff_exists'.mp (hmissing t (by simp))
    exact (hnone bo oo th hb hoo hth).elim

theorem needsBase_step {fuel : ℕ}
    (ih : ∀ n, fuel = n + 1 → NeedsBase store swept P n) :
    NeedsBase store swept P fuel := by
  intro path base ours theirs hours htheirs hmissing
  -- nothing is read where two of the three agree
  have hagree : ∀ {r : Option Id}, (ours = theirs ∨ base = ours ∨
      base = theirs) →
      mergeKey swept (mergeObjects swept fuel) path base ours theirs =
        (r, .empty) →
      ((mergeKey swept (mergeObjects swept fuel) path base ours
        theirs).2.missing = [] ↔
        ∀ x, ReadFromBase store base ours theirs x →
          (swept.get x).isSome = true) := by
    intro r hsame hr
    rw [hr]
    simp only [MergeLog.empty, true_iff]
    intro x hx
    cases hx with
    | here hbo hbt hot => simp [hbo, hbt, hot] at hsame
    | entry hbo hbt hot => simp [hbo, hbt, hot] at hsame
  by_cases hot : ours = theirs
  · subst hot
    exact hagree (Or.inl rfl) (mergeKey_of_ours_eq_theirs base ours)
  by_cases hbo : base = ours
  · subst hbo
    exact hagree (Or.inr (Or.inl rfl)) (mergeKey_of_base_eq_ours base theirs)
  by_cases hbt : base = theirs
  · subst hbt
    exact hagree (Or.inr (Or.inr rfl)) (mergeKey_of_base_eq_theirs ours base)
  rcases base with _ | b <;> rcases ours with _ | o <;>
    rcases theirs with _ | t
  · contradiction
  · contradiction
  · contradiction
  · have hne : o ≠ t := by simpa using hot
    have hlt := (hours o rfl).2
    obtain ⟨n, rfl⟩ : ∃ n, fuel = n + 1 := ⟨fuel - 1, by omega⟩
    simp only [mergeKey, if_neg hne] at hmissing ⊢
    rw [eq_true (missing_added hkept hclosed (ih n rfl) path (hours o rfl).1
      (htheirs t rfl) hlt hmissing), true_iff]
    intro x hx
    cases hx
  · contradiction
  · have hne : b ≠ t := by simpa using hbt
    simp only [mergeKey, if_neg hne] at hmissing ⊢
    exact missing_deleted_iff hkept (htheirs t rfl) hbo hbt hot
      (Or.inl rfl) hmissing
  · have hne : b ≠ o := by simpa using hbo
    simp only [mergeKey, if_neg hne] at hmissing ⊢
    exact missing_deleted_iff hkept (hours o rfl).1 hbo hbt hot
      (Or.inr rfl) hmissing
  · have hne₁ : o ≠ t := by simpa using hot
    have hne₂ : b ≠ o := by simpa using hbo
    have hne₃ : b ≠ t := by simpa using hbt
    have hlt := (hours o rfl).2
    obtain ⟨n, rfl⟩ : ∃ n, fuel = n + 1 := ⟨fuel - 1, by omega⟩
    simp only [mergeKey, if_neg hne₁, if_neg hne₂, if_neg hne₃] at hmissing ⊢
    exact missing_changed_iff hle hkept hclosed (ih n rfl) path hne₂ hne₃ hne₁
      (hours o rfl).1 (htheirs t rfl) hlt hmissing

theorem needsBase (fuel : ℕ) : NeedsBase store swept P fuel := by
  induction fuel with
  | zero => exact needsBase_step hle hkept hclosed fun n hn => by omega
  | succ fuel ih =>
      apply needsBase_step hle hkept hclosed
      intro n hn
      rwa [← Nat.succ.inj hn]

theorem tryThreeWayMergeCollect_swept_iff {base ours theirs : Id}
    {result : MergeResult Id × List (Object Id)} (hours : P ours)
    (htheirs : P theirs)
    (h : tryThreeWayMergeCollect store base ours theirs = .ok result) :
    tryThreeWayMergeCollect swept base ours theirs = .ok result ↔
      ∀ x, ReadFromBase store (some base) (some ours) (some theirs) x →
        (swept.get x).isSome = true := by
  have hok : ∀ {s : ObjectStore Id} {r},
      tryThreeWayMergeCollect s base ours theirs = .ok r →
        (threeWayMergeCollect s base ours theirs).2.missing = [] := by
    intro s r hr
    simp only [tryThreeWayMergeCollect] at hr
    split at hr
    next => contradiction
    next hnil => exact hnil
  have hfuel : ∀ o ∈ some ours, P o ∧ Digest.rank o < Digest.rank ours + 1 := by
    intro o ho
    rw [Option.mem_some_iff] at ho
    subst ho
    exact ⟨hours, Nat.lt_succ_self _⟩
  have hneeds := needsBase hle hkept hclosed (Digest.rank ours + 1) "/"
    (some base) (some ours) (some theirs) hfuel
    (fun t ht => by rwa [← Option.mem_some_iff.mp ht])
    ((missing_threeWayMergeCollect_iff store base ours theirs).mp (hok h))
  rw [← hneeds, ← missing_threeWayMergeCollect_iff]
  constructor
  · exact hok
  · intro hnil
    have hswept : tryThreeWayMergeCollect swept base ours theirs =
        .ok ((threeWayMergeCollect swept base ours theirs).1,
          (threeWayMergeCollect swept base ours theirs).2.created) := by
      simp only [tryThreeWayMergeCollect, hnil]
    have hsame := tryThreeWayMergeCollect_mono hle hswept
    rw [hswept, ← hsame, h]

end Swept

/-! ## What a merge stores -/

/-- An id is one of those given, or that of an object the merge made. -/
def Sourced (P : Id → Prop) (created : List (Object Id)) (x : Id) : Prop :=
  P x ∨ ∃ c ∈ created, c.id = x

/-- The objects a merge made point at what was given and at each other. -/
def SourcedLog (P : Id → Prop) (log : MergeLog Id) : Prop :=
  ∀ c ∈ log.created, ∀ x ∈ c.childIds, Sourced P log.created x

theorem Sourced.mono {P : Id → Prop} {created more : List (Object Id)}
    (hsub : ∀ c ∈ created, c ∈ more) {x : Id} (h : Sourced P created x) :
    Sourced P more x := by
  rcases h with h | ⟨c, hc, hx⟩
  · exact Or.inl h
  · exact Or.inr ⟨c, hsub c hc, hx⟩

/-- A merge function whose results point at its two sides. -/
def SourcesFor (P : Id → Prop) (merge : MergeFn Id) : Prop :=
  ∀ path bo oo th, P oo.id → P th.id → (∀ c ∈ oo.childIds, P c) →
    (∀ c ∈ th.childIds, P c) →
    Sourced P (merge path bo oo th).2.created (merge path bo oo th).1.id ∧
      (∀ c ∈ (merge path bo oo th).1.childIds,
        Sourced P (merge path bo oo th).2.created c) ∧
      SourcedLog P (merge path bo oo th).2

section Sources

variable {store : ObjectStore Id} {P : Id → Prop}
  (hclosed : ∀ x o, P x → store.get x = some o → ∀ c ∈ o.childIds, P c)

theorem sourcedLog_empty : SourcedLog P (MergeLog.empty : MergeLog Id) := by
  intro c hc
  simp [MergeLog.empty] at hc

theorem sourcedLog_conflict (ids : List Id) (c : Conflict) :
    SourcedLog P ((MergeLog.asked store ids).append (.conflict c)) := by
  intro o ho
  simp [MergeLog.asked, MergeLog.append, MergeLog.conflict] at ho

include hclosed

variable {merge : MergeFn Id}

theorem sourced_mergeChanged (hmerge : SourcesFor P merge) (path : String)
    (b : Id) {o t : Id} (ho : P o) (ht : P t) :
    (∀ x ∈ (mergeChanged store merge path b o t).1,
      Sourced P (mergeChanged store merge path b o t).2.created x) ∧
      SourcedLog P (mergeChanged store merge path b o t).2 := by
  unfold mergeChanged
  split
  next bo oo th hb hoo hth =>
    obtain ⟨hid, -, hlog⟩ := hmerge path bo oo th
      (by rwa [ObjectStore.id_eq_of_get hoo])
      (by rwa [ObjectStore.id_eq_of_get hth])
      (hclosed o oo ho hoo) (hclosed t th ht hth)
    refine ⟨?_, hlog⟩
    intro x hx
    rw [← Option.mem_some_iff.mp hx]
    exact hid
  next =>
    refine ⟨?_, sourcedLog_conflict _ _⟩
    intro x hx
    rw [← Option.mem_some_iff.mp hx]
    exact Or.inl ho

theorem sourced_mergeAdded (hmerge : SourcesFor P merge) (path : String)
    {o t : Id} (ho : P o) (ht : P t) :
    (∀ x ∈ (mergeAdded store merge path o t).1,
      Sourced P (mergeAdded store merge path o t).2.created x) ∧
      SourcedLog P (mergeAdded store merge path o t).2 := by
  unfold mergeAdded
  split
  next oe te hoo hth =>
    obtain ⟨hid, -, hlog⟩ := hmerge path Object.emptyMap (Object.map oe)
      (Object.map te)
      (by rwa [Object.map, ObjectStore.id_eq_of_get hoo])
      (by rwa [Object.map, ObjectStore.id_eq_of_get hth])
      (hclosed o _ ho hoo) (hclosed t _ ht hth)
    refine ⟨?_, hlog⟩
    intro x hx
    rw [← Option.mem_some_iff.mp hx]
    exact hid
  next =>
    refine ⟨?_, sourcedLog_conflict _ _⟩
    intro x hx
    rw [← Option.mem_some_iff.mp hx]
    exact Or.inl ho

theorem sourced_mergeKey (hmerge : SourcesFor P merge) (path : String)
    (base : Option Id) {ours theirs : Option Id} (hours : ∀ o ∈ ours, P o)
    (htheirs : ∀ t ∈ theirs, P t) :
    (∀ x ∈ (mergeKey store merge path base ours theirs).1,
      Sourced P (mergeKey store merge path base ours theirs).2.created x) ∧
      SourcedLog P (mergeKey store merge path base ours theirs).2 := by
  have hside : ∀ {side : Option Id} {log : MergeLog Id},
      (∀ x ∈ side, P x) → SourcedLog P log →
      (∀ x ∈ (side, log).1, Sourced P (side, log).2.created x) ∧
        SourcedLog P (side, log).2 :=
    fun hP hlog => ⟨fun x hx => Or.inl (hP x hx), hlog⟩
  have hnone : ∀ x ∈ (none : Option Id), P x := by simp
  rcases base with _ | b <;> rcases ours with _ | o <;>
    rcases theirs with _ | t <;> simp only [mergeKey]
  · exact hside hnone sourcedLog_empty
  · exact hside htheirs sourcedLog_empty
  · exact hside hours sourcedLog_empty
  · split
    · exact hside hours sourcedLog_empty
    · exact sourced_mergeAdded hclosed hmerge path (hours o rfl)
        (htheirs t rfl)
  · exact hside hnone sourcedLog_empty
  · split
    · exact hside hnone sourcedLog_empty
    · exact hside hnone (sourcedLog_conflict _ _)
  · split
    · exact hside hnone sourcedLog_empty
    · exact hside hours (sourcedLog_conflict _ _)
  · split
    · exact hside hours sourcedLog_empty
    split
    · exact hside htheirs sourcedLog_empty
    split
    · exact hside hours sourcedLog_empty
    · exact sourced_mergeChanged hclosed hmerge path b (hours o rfl)
        (htheirs t rfl)

theorem sourced_mergeMaps (hmerge : SourcesFor P merge) (path : String)
    (b : BTreeMap String Id) {o t : BTreeMap String Id}
    (ho : ∀ c ∈ (Object.map o).childIds, P c)
    (ht : ∀ c ∈ (Object.map t).childIds, P c) :
    (mergeMaps store merge path b o t).1 ∈
        (mergeMaps store merge path b o t).2.created ∧
      SourcedLog P (mergeMaps store merge path b o t).2 := by
  have hours : ∀ (key : String), ∀ x ∈ o[key]?, P x :=
    fun key x hx => ho x (Object.mem_childIds_of_getElem? hx)
  have htheirs : ∀ (key : String), ∀ x ∈ t[key]?, P x :=
    fun key x hx => ht x (Object.mem_childIds_of_getElem? hx)
  have hkey := fun key : String =>
    sourced_mergeKey hclosed hmerge (childPath path key) b[key]? (hours key)
      (htheirs key)
  have hsub : ∀ key ∈ KeyedMap.allKeys [b, o, t],
      ∀ c ∈ (mergeKey store merge (childPath path key) b[key]? o[key]?
        t[key]?).2.created, c ∈ (mergeMaps store merge path b o t).2.created := by
    intro key hmem c hc
    simp only [mergeMaps, MergeLog.append, MergeLog.concat, List.flatMap_map]
    exact List.mem_append_left _ (List.mem_flatMap.mpr ⟨key, hmem, hc⟩)
  constructor
  · simp [mergeMaps, MergeLog.append, MergeLog.create]
  · intro c hc x hx
    simp only [mergeMaps, MergeLog.append, MergeLog.concat, List.flatMap_map,
      MergeLog.create, List.mem_append, List.mem_flatMap,
      List.mem_singleton] at hc
    rcases hc with ⟨key, hmem, hc⟩ | rfl
    · exact ((hkey key).2 c hc x hx).mono (hsub key hmem)
    · obtain ⟨key, hget⟩ := Object.exists_getElem?_of_mem_childIds hx
      rw [KeyedMap.getElem?_ofKeys] at hget
      split at hget
      next hmem => exact ((hkey key).1 x hget).mono (hsub key hmem)
      next => contradiction

/-- What a merge makes points at its sides and at what it makes. -/
theorem sourcesFor_mergeObjects (fuel : ℕ) :
    SourcesFor P (mergeObjects store fuel) := by
  have hside : ∀ {o : Object Id} {log : MergeLog Id}, P o.id →
      (∀ c ∈ o.childIds, P c) → SourcedLog P log →
      Sourced P (o, log).2.created (o, log).1.id ∧
        (∀ c ∈ (o, log).1.childIds, Sourced P (o, log).2.created c) ∧
        SourcedLog P (o, log).2 :=
    fun hid hchildren hlog =>
      ⟨Or.inl hid, fun c hc => Or.inl (hchildren c hc), hlog⟩
  have hmade : ∀ {r : Object Id × MergeLog Id}, r.1 ∈ r.2.created →
      SourcedLog P r.2 → Sourced P r.2.created r.1.id ∧
        (∀ c ∈ r.1.childIds, Sourced P r.2.created c) ∧ SourcedLog P r.2 :=
    fun hmem hlog => ⟨Or.inr ⟨_, hmem, rfl⟩, hlog _ hmem, hlog⟩
  induction fuel with
  | zero =>
      intro path bo oo th ho _ hoc _
      exact hside ho hoc sourcedLog_empty
  | succ fuel ih =>
      intro path bo oo th ho ht hoc htc
      simp only [mergeObjects]
      split
      · exact hside ho hoc sourcedLog_empty
      split
      · exact hside ht htc sourcedLog_empty
      split
      · exact hside ho hoc sourcedLog_empty
      split
      next b o t _ _ _ =>
        obtain ⟨hmem, hlog⟩ := sourced_mergeMaps hclosed ih path b hoc htc
        exact hmade hmem hlog
      next b o t _ _ _ =>
        have hlog : ∀ log : MergeLog Id, log.created = [Object.list o] →
            SourcedLog P log := by
          intro log hlog c hc x hx
          rw [hlog, List.mem_singleton] at hc
          subst hc
          exact Or.inl (hoc x hx)
        simp only [mergeLists]
        split
        · exact hside ho hoc (hlog _ rfl)
        · exact hside ho hoc (hlog _ rfl)
      next b o t _ _ _ =>
        apply hmade (List.mem_singleton_self _)
        intro c hc x hx
        rw [mergeSets, MergeLog.create, List.mem_singleton] at hc
        subst hc
        rcases mem_sortedUnion.mp hx with hx | hx
        · exact Or.inl (hoc x hx)
        · exact Or.inl (htc x hx)
      next =>
        apply hside ho hoc
        intro c hc
        simp [MergeLog.conflict] at hc

theorem sourced_of_success {base ours theirs : Id} {merged : Object Id}
    {created : List (Object Id)} (hours : P ours) (htheirs : P theirs)
    (h : tryThreeWayMergeCollect store base ours theirs =
      .ok (.success merged, created)) :
    ∀ c ∈ created ++ [merged], ∀ x ∈ c.childIds,
      Sourced P (created ++ [merged]) x := by
  have hsub : ∀ c ∈ created, c ∈ created ++ [merged] :=
    fun c hc => List.mem_append_left _ hc
  rcases tryThreeWayMergeCollect_eq_ok h with ⟨-, hr⟩ | ⟨-, -, hr⟩ |
    ⟨-, -, -, hr⟩ | ⟨-, -, -, bo, oo, th, -, hoo, hth, -, hcreated, hr⟩
  · cases hr
  · cases hr
  · cases hr
  · obtain ⟨-, hchildren, hlog⟩ := sourcesFor_mergeObjects hclosed
      (Digest.rank ours + 1) "/" bo oo th
      (by rwa [ObjectStore.id_eq_of_get hoo])
      (by rwa [ObjectStore.id_eq_of_get hth])
      (hclosed ours oo hours hoo) (hclosed theirs th htheirs hth)
    split at hr
    next =>
      rw [MergeResult.success.injEq] at hr
      subst hr hcreated
      intro c hc x hx
      rcases List.mem_append.mp hc with hc | hc
      · exact (hlog c hc x hx).mono hsub
      · rw [List.mem_singleton] at hc
        subst hc
        exact (hchildren x hx).mono hsub
    next => cases hr

end Sources

end AgentStateGraph
