import AgentStateGraph.Core.MergeSettles

/-!
# What a merge makes of each place

A conflict resolves to our side, with all that lies below it.  So a place that
our side left as the base has it gives way to the other side, unless a place
above it is in collision: both sides changed that, and it is not a map that can
be merged key by key.  Then it is as our side has it.  A merge without
conflicts settles every place.  Nothing is assumed about objects the merge did
not ask for.
-/

namespace AgentStateGraph

open KeyedMap

variable {Id : Type} [Digest Id]

/-! ## Collisions -/

/-- Both sides hold maps, over a map or over nothing. -/
def MergeableMaps (view : ObjectStore Id) (base ours theirs : Option Id) : Prop :=
  (∃ o oe, ours = some o ∧ view.get o = some (Object.map oe)) ∧
    (∃ t te, theirs = some t ∧ view.get t = some (Object.map te)) ∧
    ∀ b, base = some b → ∃ be, view.get b = some (Object.map be)

/-- Two ids of objects that compare equal, as the two zeros do. -/
def SameValue (view : ObjectStore Id) (x y : Option Id) : Prop :=
  ∃ i j a c, x = some i ∧ y = some j ∧ view.get i = some a ∧
    view.get j = some c ∧ a.partialEq c = true

/-- Both sides changed a place, differently, and it is merged as a whole. -/
def Collides (view : ObjectStore Id) (base ours theirs : Option Id) : Prop :=
  base ≠ ours ∧ base ≠ theirs ∧ ours ≠ theirs ∧
    ¬MergeableMaps view base ours theirs ∧ ¬SameValue view base ours

/-- A place above is in collision. -/
def Overridden (view : ObjectStore Id) (base ours theirs : Option Id)
    (path : List PathComponent) : Prop :=
  ∃ above c rest, path = above ++ c :: rest ∧
    Collides view (lookupAt view base above) (lookupAt view ours above)
      (lookupAt view theirs above)

section Overridden

variable {view : ObjectStore Id} {base ours theirs : Option Id}

theorem not_overridden_nil : ¬Overridden view base ours theirs [] := by
  rintro ⟨above, c, rest, h, -⟩
  simp at h

/-- Where two of the three agree nothing below collides. -/
theorem not_overridden_of_eq
    (h : base = ours ∨ base = theirs ∨ ours = theirs)
    (path : List PathComponent) : ¬Overridden view base ours theirs path := by
  rintro ⟨above, -, -, -, hbo, hbt, hot, -⟩
  rcases h with rfl | rfl | rfl <;> contradiction

theorem overridden_cons_iff {c : PathComponent} {path : List PathComponent} :
    Overridden view base ours theirs (c :: path) ↔
      Collides view base ours theirs ∨
        Overridden view (lookupAt view base [c]) (lookupAt view ours [c])
          (lookupAt view theirs [c]) path := by
  constructor
  · rintro ⟨above, d, rest, h, hcollides⟩
    cases above with
    | nil => exact Or.inl hcollides
    | cons a above =>
        rw [List.cons_append, List.cons.injEq] at h
        obtain ⟨rfl, hpath⟩ := h
        refine Or.inr ⟨above, d, rest, hpath, ?_⟩
        simp only [← lookupAt_append]
        exact hcollides
  · rintro (hcollides | ⟨above, d, rest, rfl, hcollides⟩)
    · exact ⟨[], c, path, rfl, hcollides⟩
    · refine ⟨c :: above, d, rest, rfl, ?_⟩
      simp only [← lookupAt_append] at hcollides
      exact hcollides

end Overridden

/-! ## One place -/

/-- What a merge makes of three ids, below a collision or not. -/
structure MergesTo (base ours theirs result : Option Id) (overridden : Prop) :
    Prop where
  takesOurs : theirs = base → result = ours
  takesTheirs : ¬overridden → ours = base → result = theirs
  overrides : overridden → result = ours

section MergesTo

omit [Digest Id]

variable {base ours theirs result : Option Id} {overridden : Prop}

theorem keeps_ours_of_overridden (h : overridden) :
    MergesTo base ours theirs ours overridden :=
  ⟨fun _ => rfl, fun hnot => absurd h hnot, fun _ => rfl⟩

/-- Nothing on either side, and nothing in the result. -/
theorem keeps_none : MergesTo base (none : Option Id) none none overridden :=
  ⟨fun _ => rfl, fun _ _ => rfl, fun _ => rfl⟩

theorem keeps_agreed : MergesTo base ours ours ours overridden :=
  ⟨fun _ => rfl, fun _ _ => rfl, fun _ => rfl⟩

theorem keeps_theirs (h : ¬overridden) :
    MergesTo ours ours theirs theirs overridden :=
  ⟨fun h => h, fun _ _ => rfl, fun hover => absurd hover h⟩

theorem keeps_ours : MergesTo theirs ours theirs ours overridden :=
  ⟨fun _ => rfl, fun _ h => h, fun _ => rfl⟩

/-- Where all three differ, nothing is asked of the result. -/
theorem keeps_of_ne (hbo : base ≠ ours) (hbt : base ≠ theirs)
    (h : ¬overridden) : MergesTo base ours theirs result overridden :=
  ⟨fun h => absurd h.symm hbt, fun _ h => absurd h.symm hbo,
    fun hover => absurd hover h⟩

end MergesTo

/-! ## The merge -/

/-- What the induction over the fuel says of every place. -/
def MergesFor (store view : ObjectStore Id) (fuel : ℕ) : Prop :=
  ∀ (path : String) (base ours theirs : Option Id),
    (∀ x, ours = some x → Digest.rank x < fuel) →
    let r := mergeKey store (mergeObjects store fuel) path base ours theirs
    r.2.missing = [] → (∀ o ∈ r.2.created, view.get o.id = some o) →
    ∀ q, MergesTo (lookupAt view base q) (lookupAt view ours q)
        (lookupAt view theirs q) (lookupAt view r.1 q)
        (Overridden view base ours theirs q) ∧
      (r.2.conflicts = [] → Settles (lookupAt view base q)
        (lookupAt view ours q) (lookupAt view theirs q) (lookupAt view r.1 q))

section Merge

variable {store view : ObjectStore Id} (hle : store ≤ view)
include hle

variable {fuel : ℕ} {path : String} {o t b : Id}

theorem merges_maps (ih : MergesFor store view fuel) {base : Option Id}
    {be oe te : BTreeMap String Id} (hbo : base ≠ some o) (hbt : base ≠ some t)
    (hot : o ≠ t) (hrank : Digest.rank o < fuel + 1)
    (hbe : ∀ c q, lookupAt view base (c :: q) =
      lookupAt view (childIdAt (Object.map be) c) q)
    (hbase : ∀ b, base = some b → ∃ be, view.get b = some (Object.map be))
    (hoe : store.get o = some (Object.map oe))
    (hte : store.get t = some (Object.map te))
    (hmissing : (mergeObjects store (fuel + 1) path (Object.map be)
      (Object.map oe) (Object.map te)).2.missing = [])
    (hcreated : ∀ x ∈ (mergeObjects store (fuel + 1) path (Object.map be)
      (Object.map oe) (Object.map te)).2.created, view.get x.id = some x)
    (q : List PathComponent) :
    MergesTo (lookupAt view base q) (lookupAt view (some o) q)
        (lookupAt view (some t) q)
        (lookupAt view (some (mergeObjects store (fuel + 1) path (Object.map be)
          (Object.map oe) (Object.map te)).1.id) q)
        (Overridden view base (some o) (some t) q) ∧
      ((mergeObjects store (fuel + 1) path (Object.map be) (Object.map oe)
          (Object.map te)).2.conflicts = [] →
        Settles (lookupAt view base q) (lookupAt view (some o) q)
          (lookupAt view (some t) q)
          (lookupAt view (some (mergeObjects store (fuel + 1) path
            (Object.map be) (Object.map oe) (Object.map te)).1.id) q)) := by
  obtain ⟨entries, hr, hkeys, hcs, hcr, hmiss, hstored⟩ :=
    mergeObjects_maps store fuel path be oe te
  have hget : view.get (Object.map entries).id = some (Object.map entries) := by
    rcases hstored with rfl | rfl | hmem
    · rw [ObjectStore.id_eq_of_get hoe]
      exact hle o _ hoe
    · rw [ObjectStore.id_eq_of_get hte]
      exact hle t _ hte
    · exact hcreated _ hmem
  have hmaps : MergeableMaps view base (some o) (some t) :=
    ⟨⟨o, oe, rfl, hle o _ hoe⟩, ⟨t, te, rfl, hle t _ hte⟩, hbase⟩
  rw [hr]
  cases q with
  | nil =>
      exact ⟨keeps_of_ne hbo hbt not_overridden_nil,
        fun _ => settles_of_ne (fun h => hot (Option.some.inj h)) hbo hbt⟩
  | cons c q =>
      have hover : Overridden view base (some o) (some t) (c :: q) ↔
          Overridden view (childIdAt (Object.map be) c)
            (childIdAt (Object.map oe) c) (childIdAt (Object.map te) c) q := by
        rw [overridden_cons_iff, hbe, lookupAt_of_get (hle o _ hoe),
          lookupAt_of_get (hle t _ hte)]
        simp only [lookupAt_nil]
        exact or_iff_right fun h => h.2.2.2.1 hmaps
      rw [hover, hbe, lookupAt_of_get (hle o _ hoe),
        lookupAt_of_get (hle t _ hte), lookupAt_of_get hget]
      cases c with
      | index i =>
          simp only [childIdAt, Object.map, lookupAt_none]
          exact ⟨keeps_none, fun _ => settles_agreed none none⟩
      | key k =>
          have hchild : ∀ m : BTreeMap String Id,
              childIdAt (Object.map m) (.key k) = m[k]? := fun _ => rfl
          simp only [hchild, hkeys]
          have hkey := ih (childPath path k) be[k]? oe[k]? te[k]? ?_
            (hmiss.mp hmissing k) (fun x hx => hcreated x (hcr k x hx)) q
          · refine ⟨hkey.1, fun hconflicts => hkey.2 ?_⟩
            rw [hcs, List.flatMap_eq_nil_iff] at hconflicts
            by_cases hk : k ∈ allKeys [be, oe, te]
            · exact hconflicts k hk
            · simp only [mem_allKeys, List.mem_cons, List.not_mem_nil,
                or_false, exists_eq_or_imp, exists_eq_left, not_or,
                not_not] at hk
              simp [hk, mergeKey, MergeLog.empty]
          · intro x hx
            have hmem : x ∈ (Object.map oe).childIds :=
              Object.mem_childIds_of_getElem? hx
            have hlt := ObjectStore.rank_lt_of_get hoe hmem
            omega

/-- A key that all three have and both sides changed. -/
theorem merges_changed (ih : MergesFor store view fuel) (hbo : b ≠ o)
    (hbt : b ≠ t) (hot : o ≠ t) (hrank : Digest.rank o < fuel + 1)
    (hmissing : (mergeChanged store (mergeObjects store (fuel + 1)) path b o
      t).2.missing = [])
    (hcreated : ∀ x ∈ (mergeChanged store (mergeObjects store (fuel + 1)) path b
      o t).2.created, view.get x.id = some x) (q : List PathComponent) :
    MergesTo (lookupAt view (some b) q) (lookupAt view (some o) q)
        (lookupAt view (some t) q)
        (lookupAt view (mergeChanged store (mergeObjects store (fuel + 1)) path
          b o t).1 q) (Overridden view (some b) (some o) (some t) q) ∧
      ((mergeChanged store (mergeObjects store (fuel + 1)) path b o
          t).2.conflicts = [] →
        Settles (lookupAt view (some b) q) (lookupAt view (some o) q)
          (lookupAt view (some t) q)
          (lookupAt view (mergeChanged store (mergeObjects store (fuel + 1))
            path b o t).1 q)) := by
  have hsome : ∀ {x y : Id}, x ≠ y → some x ≠ some y :=
    fun h hxy => h (Option.some.inj hxy)
  cases q with
  | nil =>
      exact ⟨keeps_of_ne (hsome hbo) (hsome hbt) not_overridden_nil,
        fun _ => settles_of_ne (hsome hot) (hsome hbo) (hsome hbt)⟩
  | cons c q =>
      unfold mergeChanged at hmissing hcreated ⊢
      split at hmissing
      next bo oo th hb ho ht =>
        simp only [hb, ho, ht] at hcreated ⊢
        have hatom : ∀ {x : Id} {a : Atom}, store.get x = some (.atom a) →
            ∀ q, lookupAt view (some x) (c :: q) = none := by
          intro x a hx q
          rw [lookupAt_of_get (hle x _ hx)]
          exact lookupAt_none view q
        by_cases h₁ : oo.partialEq th = true
        · obtain ⟨⟨x, rfl⟩, y, rfl⟩ :=
            exists_atoms_of_partialEq (ne_of_get hot ho ht) h₁
          have hr : (mergeObjects store (fuel + 1) path bo (.atom x)
              (.atom y)).1 = .atom x := by simp [mergeObjects, h₁]
          rw [hr, ObjectStore.id_eq_of_get ho, hatom ho, hatom ht]
          exact ⟨keeps_none, fun _ => settles_agreed _ _⟩
        by_cases h₂ : bo.partialEq oo = true
        · obtain ⟨⟨x, rfl⟩, y, rfl⟩ :=
            exists_atoms_of_partialEq (ne_of_get hbo hb ho) h₂
          have hr : (mergeObjects store (fuel + 1) path (.atom x) (.atom y)
              th).1 = th := by simp [mergeObjects, h₁, h₂]
          have hnot : ¬Overridden view (some b) (some o) (some t) (c :: q) := by
            rw [overridden_cons_iff, hatom hb, hatom ho]
            rintro (hcollides | hbelow)
            · exact hcollides.2.2.2.2
                ⟨b, o, _, _, rfl, rfl, hle b _ hb, hle o _ ho, h₂⟩
            · exact not_overridden_of_eq (Or.inl rfl) q hbelow
          rw [hr, ObjectStore.id_eq_of_get ht, hatom hb, hatom ho]
          exact ⟨keeps_theirs hnot, fun _ => settles_theirs _ _⟩
        by_cases h₃ : bo.partialEq th = true
        · obtain ⟨⟨x, rfl⟩, y, rfl⟩ :=
            exists_atoms_of_partialEq (ne_of_get hbt hb ht) h₃
          have hr : (mergeObjects store (fuel + 1) path (.atom x) oo
              (.atom y)).1 = oo := by simp [mergeObjects, h₁, h₂, h₃]
          rw [hr, ObjectStore.id_eq_of_get ho, hatom hb, hatom ht]
          exact ⟨keeps_ours, fun _ => settles_ours _ _⟩
        rcases mergeObjects_differ store fuel path h₁ h₂ h₃ with
          ⟨be, oe, te, rfl, rfl, rfl⟩ | ⟨bs, os, ts, rfl, rfl, rfl, hr⟩ |
            ⟨hverdict, hr, hcs, -⟩
        · exact merges_maps hle ih (hsome hbo) (hsome hbt) hot hrank
            (lookupAt_of_get (hle b _ hb))
            (fun x hx => ⟨be, Option.some.inj hx ▸ hle b _ hb⟩) ho ht hmissing
            hcreated (c :: q)
        · have hset : ∀ {x : Id} {xs : List Id},
              view.get x = some (.node (.set xs)) →
              lookupAt view (some x) (c :: q) = none := by
            intro x xs hx
            rw [lookupAt_of_get hx]
            exact lookupAt_none view q
          rw [hr] at hcreated ⊢
          have hget : view.get (mergeSets os ts).1.id =
              some (mergeSets os ts).1 :=
            hcreated _ (List.mem_singleton_self _)
          rw [hset (hle b _ hb), hset (hle o _ ho), hset (hle t _ ht),
            hset hget]
          exact ⟨keeps_none, fun _ => settles_agreed none none⟩
        · have hcollides : Collides view (some b) (some o) (some t) := by
            refine ⟨hsome hbo, hsome hbt, hsome hot, ?_, ?_⟩
            · rintro ⟨⟨o', oe, ho', hoe⟩, ⟨t', te, ht', hte⟩, hbase⟩
              obtain ⟨be, hbe⟩ := hbase b rfl
              cases ho'
              cases ht'
              rw [hle b _ hb] at hbe
              rw [hle o _ ho] at hoe
              rw [hle t _ ht] at hte
              cases hbe
              cases hoe
              cases hte
              have hconflict := hverdict o t
              unfold objectVerdict at hconflict
              rw [if_neg h₁, if_neg h₂, if_neg h₃] at hconflict
              contradiction
            · rintro ⟨i, j, a, d, hi, hj, ha, hd, heq⟩
              cases hi
              cases hj
              rw [hle b _ hb] at ha
              rw [hle o _ ho] at hd
              cases ha
              cases hd
              exact h₂ heq
          rw [hr, ObjectStore.id_eq_of_get ho, hcs]
          exact ⟨keeps_ours_of_overridden
            (overridden_cons_iff.mpr (Or.inl hcollides)),
            fun hconflicts => by simp at hconflicts⟩
      next hnot =>
        simp only [MergeLog.append, MergeLog.conflict, List.append_nil]
          at hmissing
        have hfound := MergeLog.missing_asked_eq_nil_iff.mp hmissing
        obtain ⟨bo, hb⟩ := Option.ne_none_iff_exists'.mp (hfound b (by simp))
        obtain ⟨oo, ho⟩ := Option.ne_none_iff_exists'.mp (hfound o (by simp))
        obtain ⟨th, ht⟩ := Option.ne_none_iff_exists'.mp (hfound t (by simp))
        exact absurd ht (hnot bo oo th hb ho)

theorem merges_added (ih : MergesFor store view fuel) (hot : o ≠ t)
    (hrank : Digest.rank o < fuel + 1)
    (hmissing : (mergeAdded store (mergeObjects store (fuel + 1)) path o
      t).2.missing = [])
    (hcreated : ∀ x ∈ (mergeAdded store (mergeObjects store (fuel + 1)) path o
      t).2.created, view.get x.id = some x) (q : List PathComponent) :
    MergesTo (lookupAt view none q) (lookupAt view (some o) q)
        (lookupAt view (some t) q)
        (lookupAt view (mergeAdded store (mergeObjects store (fuel + 1)) path o
          t).1 q) (Overridden view none (some o) (some t) q) ∧
      ((mergeAdded store (mergeObjects store (fuel + 1)) path o
          t).2.conflicts = [] →
        Settles (lookupAt view none q) (lookupAt view (some o) q)
          (lookupAt view (some t) q)
          (lookupAt view (mergeAdded store (mergeObjects store (fuel + 1)) path
            o t).1 q)) := by
  by_cases hmaps : ∃ oe te, store.get o = some (Object.map oe) ∧
      store.get t = some (Object.map te)
  · obtain ⟨oe, te, ho, ht⟩ := hmaps
    have hempty : ∀ (c : PathComponent) (p : List PathComponent),
        lookupAt view none (c :: p) =
          lookupAt view (childIdAt (Object.map ∅) c) p := by
      intro c p
      rw [lookupAt_none]
      cases c <;> simp [childIdAt, Object.map, lookupAt_none]
    simp only [mergeAdded, ho, ht, Object.map] at hmissing hcreated ⊢
    exact merges_maps hle ih (by simp) (by simp) hot hrank hempty
      (fun b hb => by simp at hb) ho ht hmissing hcreated q
  · have hr : mergeAdded store (mergeObjects store (fuel + 1)) path o t =
        (some o, (MergeLog.asked store [o, t]).append
          (.conflict (keyConflict store path none (some o) (some t)))) := by
      unfold mergeAdded
      split
      next oe te ho ht => exact absurd ⟨oe, te, ho, ht⟩ hmaps
      next => rfl
    rw [hr] at hmissing ⊢
    simp only [MergeLog.append, MergeLog.conflict, List.append_nil] at hmissing
    have hfound := MergeLog.missing_asked_eq_nil_iff.mp hmissing
    obtain ⟨oo, ho⟩ := Option.ne_none_iff_exists'.mp (hfound o (by simp))
    obtain ⟨th, ht⟩ := Option.ne_none_iff_exists'.mp (hfound t (by simp))
    have hcollides : Collides view none (some o) (some t) := by
      refine ⟨by simp, by simp, fun h => hot (Option.some.inj h), ?_, ?_⟩
      · rintro ⟨⟨o', oe, ho', hoe⟩, ⟨t', te, ht', hte⟩, -⟩
        cases ho'
        cases ht'
        rw [hle o _ ho] at hoe
        rw [hle t _ ht] at hte
        rw [hoe] at ho
        rw [hte] at ht
        exact hmaps ⟨oe, te, ho, ht⟩
      · rintro ⟨i, j, a, d, hi, -⟩
        simp at hi
    refine ⟨?_, fun hconflicts => by simp [MergeLog.append, MergeLog.conflict]
      at hconflicts⟩
    cases q with
    | nil => exact keeps_of_ne (by simp) (by simp) not_overridden_nil
    | cons c q =>
        exact keeps_ours_of_overridden
          (overridden_cons_iff.mpr (Or.inl hcollides))

omit hle in
/-- A key that our side deleted and the other changed. -/
theorem keeps_deleted_ours (hbt : b ≠ t) (q : List PathComponent) :
    MergesTo (lookupAt view (some b) q) (lookupAt view none q)
      (lookupAt view (some t) q) (lookupAt view none q)
      (Overridden view (some b) none (some t) q) := by
  cases q with
  | nil =>
      exact keeps_of_ne (by simp) (fun h => hbt (Option.some.inj h))
        not_overridden_nil
  | cons c q =>
      have hcollides : Collides view (some b) none (some t) := by
        refine ⟨by simp, fun h => hbt (Option.some.inj h), by simp, ?_, ?_⟩
        · rintro ⟨⟨o, oe, ho, -⟩, -⟩
          simp at ho
        · rintro ⟨i, j, a, d, -, hj, -⟩
          simp at hj
      exact keeps_ours_of_overridden
        (overridden_cons_iff.mpr (Or.inl hcollides))

omit hle in
/-- A key that the other side deleted and ours changed. -/
theorem keeps_deleted_theirs (hbo : b ≠ o) (q : List PathComponent) :
    MergesTo (lookupAt view (some b) q) (lookupAt view (some o) q)
      (lookupAt view none q) (lookupAt view (some o) q)
      (Overridden view (some b) (some o) none q) := by
  cases q with
  | nil =>
      exact keeps_of_ne (fun h => hbo (Option.some.inj h)) (by simp)
        not_overridden_nil
  | cons c q =>
      by_cases hsame : SameValue view (some b) (some o)
      · obtain ⟨i, j, a, d, hi, hj, ha, hd, heq⟩ := hsame
        cases hi
        cases hj
        obtain ⟨⟨x, rfl⟩, y, rfl⟩ :=
          exists_atoms_of_partialEq (ne_of_get hbo ha hd) heq
        rw [lookupAt_of_get ha, lookupAt_of_get hd, lookupAt_none]
        simp only [childIdAt, lookupAt_none]
        exact keeps_none
      · have hcollides : Collides view (some b) (some o) none := by
          refine ⟨fun h => hbo (Option.some.inj h), by simp, by simp, ?_, hsame⟩
          rintro ⟨-, ⟨t, te, ht, -⟩, -⟩
          simp at ht
        exact keeps_ours_of_overridden
          (overridden_cons_iff.mpr (Or.inl hcollides))

theorem mergesFor_step (ih : ∀ n, fuel = n + 1 → MergesFor store view n) :
    MergesFor store view fuel := by
  intro path base ours theirs hrank r hmissing hcreated q
  by_cases hot : ours = theirs
  · subst hot
    have hr : r = (ours, .empty) := mergeKey_of_ours_eq_theirs _ _
    rw [hr]
    exact ⟨keeps_agreed, fun _ => settles_agreed _ _⟩
  by_cases hbo : base = ours
  · subst hbo
    have hr : r = (theirs, .empty) := mergeKey_of_base_eq_ours _ _
    rw [hr]
    exact ⟨keeps_theirs (not_overridden_of_eq (Or.inl rfl) q),
      fun _ => settles_theirs _ _⟩
  by_cases hbt : base = theirs
  · subst hbt
    have hr : r = (ours, .empty) := mergeKey_of_base_eq_theirs _ _
    rw [hr]
    exact ⟨keeps_ours, fun _ => settles_ours _ _⟩
  rcases base with _ | b <;> rcases ours with _ | o <;> rcases theirs with _ | t
  · exact absurd rfl hot
  · exact absurd rfl hbo
  · exact absurd rfl hbt
  · have hlt := hrank o rfl
    obtain ⟨n, rfl⟩ : ∃ n, fuel = n + 1 := ⟨fuel - 1, by omega⟩
    have hne : o ≠ t := fun h => hot (by rw [h])
    simp only [r, mergeKey, if_neg hne] at hmissing hcreated ⊢
    exact merges_added hle (ih n rfl) hne hlt hmissing hcreated q
  · exact absurd rfl hot
  · have hne : b ≠ t := fun h => hbt (by rw [h])
    simp only [r, mergeKey, if_neg hne]
    exact ⟨keeps_deleted_ours hne q, fun hconflicts => by
      simp [MergeLog.append, MergeLog.conflict] at hconflicts⟩
  · have hne : b ≠ o := fun h => hbo (by rw [h])
    simp only [r, mergeKey, if_neg hne]
    exact ⟨keeps_deleted_theirs hne q, fun hconflicts => by
      simp [MergeLog.append, MergeLog.conflict] at hconflicts⟩
  · have hlt := hrank o rfl
    obtain ⟨n, rfl⟩ : ∃ n, fuel = n + 1 := ⟨fuel - 1, by omega⟩
    have h₁ : o ≠ t := fun h => hot (by rw [h])
    have h₂ : b ≠ o := fun h => hbo (by rw [h])
    have h₃ : b ≠ t := fun h => hbt (by rw [h])
    simp only [r, mergeKey, if_neg h₁, if_neg h₂, if_neg h₃]
      at hmissing hcreated ⊢
    exact merges_changed hle (ih n rfl) h₂ h₃ h₁ hlt hmissing hcreated q

theorem mergesFor (fuel : ℕ) : MergesFor store view fuel := by
  induction fuel with
  | zero => exact mergesFor_step hle fun n hn => by omega
  | succ fuel ih =>
      refine mergesFor_step hle ?_
      intro n hn
      obtain rfl : fuel = n := by omega
      exact ih

end Merge

section Returned

variable {store view : ObjectStore Id} {base ours theirs : Id}
  {result : MergeResult Id} {created : List (Object Id)}

/-- A merge that returned, at every path: `view` is any store with what was
there and what the merge made. -/
theorem tryThreeWayMergeCollect_merges
    (h : tryThreeWayMergeCollect store base ours theirs =
      .ok (result, created)) (hle : store ≤ view)
    (hcreated : ∀ o ∈ created, view.get o.id = some o)
    (q : List PathComponent) :
    MergesTo (idAt view base q) (idAt view ours q) (idAt view theirs q)
        (idAt view result.rootId q)
        (Overridden view (some base) (some ours) (some theirs) q) ∧
      (result.isClean = true →
        Settles (idAt view base q) (idAt view ours q) (idAt view theirs q)
          (idAt view result.rootId q)) := by
  simp only [idAt_eq_lookupAt]
  rcases tryThreeWayMergeCollect_eq_ok h with
    ⟨rfl, rfl⟩ | ⟨-, rfl, rfl⟩ | ⟨-, -, rfl, rfl⟩ |
      ⟨hbo, hbt, hot, bo, oo, th, hb, ho, ht, hmissing, hcr, hresult⟩
  · exact ⟨keeps_theirs (not_overridden_of_eq (Or.inl rfl) q),
      fun _ => settles_theirs _ _⟩
  · exact ⟨keeps_ours, fun _ => settles_ours _ _⟩
  · exact ⟨keeps_agreed, fun _ => settles_agreed _ _⟩
  · have hroot : result.rootId =
        (mergeObjects store (Digest.rank ours + 1) "/" bo oo th).1.id := by
      rw [hresult]
      split <;> rfl
    have hkey : mergeKey store (mergeObjects store (Digest.rank ours + 1)) "/"
        (some base) (some ours) (some theirs) =
        (some (mergeObjects store (Digest.rank ours + 1) "/" bo oo th).1.id,
          (mergeObjects store (Digest.rank ours + 1) "/" bo oo th).2) := by
      simp [mergeKey, mergeChanged, hbo, hbt, hot, hb, ho, ht]
    have hmerges := mergesFor hle (Digest.rank ours + 1) "/" (some base)
      (some ours) (some theirs) (fun x hx => by rw [← Option.some.inj hx]; omega)
    rw [hkey] at hmerges
    obtain ⟨hkeeps, hsettles⟩ :=
      hmerges hmissing (fun o ho => hcreated o (hcr ▸ ho)) q
    rw [hroot]
    refine ⟨hkeeps, fun hclean => hsettles ?_⟩
    by_contra hne
    rw [hresult, if_neg hne] at hclean
    simp [MergeResult.isClean] at hclean

theorem tryThreeWayMergeCollect_keeps
    (h : tryThreeWayMergeCollect store base ours theirs =
      .ok (result, created)) (hle : store ≤ view)
    (hcreated : ∀ o ∈ created, view.get o.id = some o)
    (q : List PathComponent) :
    MergesTo (idAt view base q) (idAt view ours q) (idAt view theirs q)
      (idAt view result.rootId q)
      (Overridden view (some base) (some ours) (some theirs) q) :=
  (tryThreeWayMergeCollect_merges h hle hcreated q).1

theorem tryThreeWayMergeCollect_settles
    (h : tryThreeWayMergeCollect store base ours theirs =
      .ok (result, created))
    (hclean : result.isClean = true) (hle : store ≤ view)
    (hcreated : ∀ o ∈ created, view.get o.id = some o)
    (q : List PathComponent) :
    Settles (idAt view base q) (idAt view ours q) (idAt view theirs q)
      (idAt view result.rootId q) :=
  (tryThreeWayMergeCollect_merges h hle hcreated q).2 hclean

end Returned

end AgentStateGraph
