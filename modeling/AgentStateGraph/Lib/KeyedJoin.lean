import AgentStateGraph.Lib.KeyedMap

/-!
# Joining maps key by key

Two maps are joined by keeping what only one of them has and combining what
both have.  The join is as commutative, associative and idempotent as the
operation that combines two values.  Picking the greater of two values by a
rank, with ties broken by the values themselves, is such an operation.
-/

namespace KeyedJoin

/-! ## The greater by rank -/

section Pick

variable {α ρ : Type} [LinearOrder α] [LinearOrder ρ]

/-- The value with the higher rank, or on a tie the larger value. -/
def pickBy (rank : α → ρ) (x y : α) : α :=
  if toLex (rank x, x) < toLex (rank y, y) then y else x

/-- A value with its rank before it, the order `pickBy` takes the maximum
in. -/
def ranked (rank : α → ρ) (x : α) : ρ ×ₗ α := toLex (rank x, x)

omit [LinearOrder α] [LinearOrder ρ] in
theorem ranked_injective (rank : α → ρ) :
    Function.Injective (ranked rank) := by
  intro x y h
  have := congrArg (fun p : ρ ×ₗ α => (ofLex p).2) h
  exact this

theorem ranked_pickBy (rank : α → ρ) (x y : α) :
    ranked rank (pickBy rank x y) = max (ranked rank x) (ranked rank y) := by
  simp only [pickBy]
  split
  next h => exact (max_eq_right h.le).symm
  next h => exact (max_eq_left (not_lt.mp h)).symm

theorem pickBy_comm (rank : α → ρ) (x y : α) :
    pickBy rank x y = pickBy rank y x := by
  apply ranked_injective rank
  rw [ranked_pickBy, ranked_pickBy, max_comm]

theorem pickBy_assoc (rank : α → ρ) (x y z : α) :
    pickBy rank (pickBy rank x y) z = pickBy rank x (pickBy rank y z) := by
  apply ranked_injective rank
  simp only [ranked_pickBy, max_assoc]

theorem pickBy_self (rank : α → ρ) (x : α) : pickBy rank x x = x := by
  simp [pickBy]

theorem pickBy_eq_or (rank : α → ρ) (x y : α) :
    pickBy rank x y = x ∨ pickBy rank x y = y := by
  simp only [pickBy]
  split
  · exact Or.inr rfl
  · exact Or.inl rfl

theorem le_rank_pickBy (rank : α → ρ) (x y : α) :
    rank x ≤ rank (pickBy rank x y) ∧ rank y ≤ rank (pickBy rank x y) := by
  have hmax := ranked_pickBy rank x y
  have hfst : ∀ a b : α, ranked rank a ≤ ranked rank b → rank a ≤ rank b := by
    intro a b h
    rcases Prod.Lex.le_iff.mp h with hlt | ⟨heq, -⟩
    · exact hlt.le
    · exact heq.le
  constructor
  · exact hfst _ _ (hmax ▸ le_max_left _ _)
  · exact hfst _ _ (hmax ▸ le_max_right _ _)

theorem pickBy_eq_right_iff (rank : α → ρ) (x y : α) :
    pickBy rank x y = y ↔ ranked rank x ≤ ranked rank y := by
  rw [← (ranked_injective rank).eq_iff, ranked_pickBy, max_eq_right_iff]

theorem pickBy_congr {rank rank' : α → ρ} {x y : α} (hx : rank x = rank' x)
    (hy : rank y = rank' y) : pickBy rank x y = pickBy rank' x y := by
  simp only [pickBy, hx, hy]

end Pick

/-! ## Maps -/

section Maps

variable {κ ν : Type} [LinearOrder κ]

/-- The join of two maps: the entries of the second put into the first. -/
def join (op : ν → ν → ν) (m m' : Std.ExtTreeMap κ ν compare) :
    Std.ExtTreeMap κ ν compare :=
  m'.toList.foldl
    (fun r e => r.insert e.1
      (match r[e.1]? with
      | some v => op v e.2
      | none => e.2)) m

/-- One entry put into a map. -/
def joinEntry (op : ν → ν → ν) (r : Std.ExtTreeMap κ ν compare) (e : κ × ν) :
    Std.ExtTreeMap κ ν compare :=
  r.insert e.1
    (match r[e.1]? with
    | some v => op v e.2
    | none => e.2)

theorem join_eq_foldl (op : ν → ν → ν) (m m' : Std.ExtTreeMap κ ν compare) :
    join op m m' = m'.toList.foldl (joinEntry op) m := rfl

theorem getElem?_foldl_join (op : ν → ν → ν) {l : List (κ × ν)}
    (hl : (l.map Prod.fst).Nodup) (m : Std.ExtTreeMap κ ν compare) (k : κ) :
    (l.foldl (fun r e => r.insert e.1
      (match r[e.1]? with
      | some v => op v e.2
      | none => e.2)) m)[k]? = Option.merge op m[k]? (l.lookup k) := by
  induction l generalizing m with
  | nil => simp
  | cons e l ih =>
      obtain ⟨key, v⟩ := e
      rw [List.map_cons, List.nodup_cons] at hl
      rw [List.foldl_cons, ih hl.2, Std.ExtTreeMap.getElem?_insert,
        List.lookup_cons]
      by_cases hk : key = k
      · subst hk
        have hnone : l.lookup key = none := by
          rw [List.lookup_eq_none_iff]
          intro p hp
          have hne : key ≠ p.1 := by
            intro h
            exact hl.1 (List.mem_map.mpr ⟨p, hp, h.symm⟩)
          simpa using hne
        rw [hnone]
        cases hm : m[key]? with
        | none => simp
        | some a => simp
      · have hne : (k == key) = false := by simpa using Ne.symm hk
        simp [hk, hne]

theorem lookup_of_mem {l : List (κ × ν)} (hl : (l.map Prod.fst).Nodup)
    {k : κ} {v : ν} (h : (k, v) ∈ l) : l.lookup k = some v := by
  induction l with
  | nil => simp at h
  | cons e l ih =>
      rw [List.map_cons, List.nodup_cons] at hl
      rcases List.mem_cons.mp h with rfl | h
      · simp
      · have hne : k ≠ e.1 := by
          intro heq
          exact hl.1 (List.mem_map.mpr ⟨(k, v), h, heq⟩)
        have hbeq : (k == e.1) = false := by simpa using hne
        rw [List.lookup_cons, hbeq]
        exact ih hl.2 h

theorem nodup_keys (m : Std.ExtTreeMap κ ν compare) :
    (m.toList.map Prod.fst).Nodup := by
  rw [Std.ExtTreeMap.map_fst_toList_eq_keys]
  exact Std.ExtTreeMap.nodup_keys

theorem lookup_toList (m : Std.ExtTreeMap κ ν compare) (k : κ) :
    m.toList.lookup k = m[k]? := by
  cases hget : m[k]? with
  | some v =>
      exact lookup_of_mem (nodup_keys m)
        (Std.ExtTreeMap.mem_toList_iff_getElem?_eq_some.mpr hget)
  | none =>
      rw [List.lookup_eq_none_iff]
      rintro ⟨k', v⟩ hp
      have hsome := Std.ExtTreeMap.mem_toList_iff_getElem?_eq_some.mp hp
      have hne : k ≠ k' := by
        rintro rfl
        rw [hget] at hsome
        contradiction
      simpa using hne

theorem getElem?_join (op : ν → ν → ν) (m m' : Std.ExtTreeMap κ ν compare)
    (k : κ) : (join op m m')[k]? = Option.merge op m[k]? m'[k]? := by
  rw [join, getElem?_foldl_join op (nodup_keys m'), lookup_toList]

variable {op : ν → ν → ν} {γ : Type}

theorem join_comm (hop : ∀ x y, op x y = op y x)
    (m m' : Std.ExtTreeMap κ ν compare) : join op m m' = join op m' m := by
  apply Std.ExtTreeMap.ext_getElem?
  intro k
  rw [getElem?_join, getElem?_join]
  cases m[k]? <;> cases m'[k]? <;> simp [hop]

theorem join_assoc (hop : ∀ x y z, op (op x y) z = op x (op y z))
    (m m' m'' : Std.ExtTreeMap κ ν compare) :
    join op (join op m m') m'' = join op m (join op m' m'') := by
  apply Std.ExtTreeMap.ext_getElem?
  intro k
  simp only [getElem?_join]
  cases m[k]? <;> cases m'[k]? <;> cases m''[k]? <;> simp [hop]

theorem join_self (hop : ∀ x, op x x = x) (m : Std.ExtTreeMap κ ν compare) :
    join op m m = m := by
  apply Std.ExtTreeMap.ext_getElem?
  intro k
  rw [getElem?_join]
  cases m[k]? <;> simp [hop]

theorem join_congr {op' : ν → ν → ν} {m m' : Std.ExtTreeMap κ ν compare}
    (h : ∀ (k : κ) x y, m[k]? = some x → m'[k]? = some y → op x y = op' x y) :
    join op m m' = join op' m m' := by
  apply Std.ExtTreeMap.ext_getElem?
  intro k
  rw [getElem?_join, getElem?_join]
  cases hx : m[k]? with
  | none => simp
  | some x =>
      cases hy : m'[k]? with
      | none => simp
      | some y => simp [h k x y hx hy]

/-- A map lies below itself with one entry changed when the entry it had does
not win over the new one. -/
theorem join_insert_eq_iff (hop : ∀ x, op x x = x)
    (m : Std.ExtTreeMap κ ν compare) (k : κ) (v : ν) :
    join op m (m.insert k v) = m.insert k v ↔
      ∀ u, m[k]? = some u → op u v = v := by
  constructor
  · intro h u hu
    have hk := congrArg (fun r : Std.ExtTreeMap κ ν compare => r[k]?) h
    simp only [getElem?_join, hu, Std.ExtTreeMap.getElem?_insert_self,
      Option.merge_some_some, Option.some.injEq] at hk
    exact hk
  · intro h
    apply Std.ExtTreeMap.ext_getElem?
    intro j
    rw [getElem?_join, Std.ExtTreeMap.getElem?_insert]
    by_cases hj : k = j
    · subst hj
      cases hu : m[k]? with
      | none => simp
      | some u => simp [h u hu]
    · simp only [compare_eq_iff_eq, if_neg hj]
      cases m[j]? with
      | none => rfl
      | some w => simp [hop]

theorem getElem?_join_cases {m m' : Std.ExtTreeMap κ ν compare} {k : κ} {v : ν}
    (h : (join op m m')[k]? = some v) :
    m[k]? = some v ∨ m'[k]? = some v ∨
      ∃ x y, m[k]? = some x ∧ m'[k]? = some y ∧ v = op x y := by
  rw [getElem?_join] at h
  cases hx : m[k]? with
  | none =>
      rw [hx, Option.merge_none_left] at h
      exact Or.inr (Or.inl h)
  | some x =>
      cases hy : m'[k]? with
      | none =>
          rw [hx, hy, Option.merge_none_right] at h
          exact Or.inl h
      | some y =>
          rw [hx, hy] at h
          exact Or.inr (Or.inr ⟨x, y, rfl, rfl, by simpa using h.symm⟩)

/-! ## Walking what both maps have -/

theorem flatMap_filter_of_nil {α : Type} {p : α → Bool} {f : α → List γ}
    {l : List α} (h : ∀ x ∈ l, p x = false → f x = []) :
    (l.filter p).flatMap f = l.flatMap f := by
  induction l with
  | nil => rfl
  | cons x l ih =>
      have hrest := ih fun y hy => h y (by simp [hy])
      cases hp : p x with
      | true => simp [hp, hrest]
      | false => simp [hp, hrest, h x (by simp) hp]

theorem flatMap_toList_eq_keys (m m' : Std.ExtTreeMap κ ν compare)
    {g : κ → Option ν → Option ν → List γ} (hg : ∀ k x, g k none x = []) :
    (m'.toList.flatMap fun e => g e.1 m[e.1]? (some e.2)) =
      (m'.keys.filter fun k => decide (k ∈ m)).flatMap
        fun k => g k m[k]? m'[k]? := by
  rw [flatMap_filter_of_nil, ← Std.ExtTreeMap.map_fst_toList_eq_keys,
    List.flatMap_map]
  · refine List.flatMap_congr ?_
    intro e he
    rw [Std.ExtTreeMap.mem_toList_iff_getElem?_eq_some.mp he]
  · intro k _ hk
    have hnone : m[k]? = none := by simpa using hk
    rw [hnone, hg]

/-- The entries both maps have come in the same order from either side. -/
theorem flatMap_toList_comm (m m' : Std.ExtTreeMap κ ν compare)
    {g : κ → Option ν → Option ν → List γ} (hl : ∀ k x, g k none x = [])
    (hr : ∀ k x, g k x none = []) :
    (m'.toList.flatMap fun e => g e.1 m[e.1]? (some e.2)) =
      m.toList.flatMap fun e => g e.1 (some e.2) m'[e.1]? := by
  have hkeys : (m'.keys.filter fun k => decide (k ∈ m)) =
      m.keys.filter fun k => decide (k ∈ m') := by
    have hlt : ∀ m : Std.ExtTreeMap κ ν compare, m.keys.Pairwise (· < ·) :=
      fun m => Std.ExtTreeMap.ordered_keys.imp fun h => compare_lt_iff_lt.mp h
    refine ((hlt m').filter _).eq_of_mem_iff ((hlt m).filter _) ?_
    intro k
    simp only [List.mem_filter, Std.ExtTreeMap.mem_keys, decide_eq_true_eq]
    exact and_comm
  rw [flatMap_toList_eq_keys m m' hl, hkeys]
  exact (flatMap_toList_eq_keys m' m (g := fun k x y => g k y x) hr).symm

end Maps

end KeyedJoin
