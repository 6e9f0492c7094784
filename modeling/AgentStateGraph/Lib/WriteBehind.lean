import AgentStateGraph.Lib.KeyedMap

/-!
# Tables written through queues

A table is kept elsewhere and reached through two queues, one of writes and one
of deletions.  A drain applies both, always in the same order, so a write and a
deletion of one key that wait for the same drain can be applied in the wrong
order.
-/

namespace WriteBehind

variable {κ ν : Type} [LinearOrder κ]

/-- Which queue a drain applies first. -/
inductive DrainOrder where
  | writesFirst
  | deletionsFirst
deriving DecidableEq

def applyWrites (table : Std.ExtTreeMap κ ν compare) (writes : List (κ × ν)) :
    Std.ExtTreeMap κ ν compare :=
  writes.foldl (fun t w => t.insert w.1 w.2) table

def applyDeletions (table : Std.ExtTreeMap κ ν compare) (deletions : List κ) :
    Std.ExtTreeMap κ ν compare :=
  deletions.foldl (fun t k => t.erase k) table

/-- The table after a drain of the two queues. -/
def flush (order : DrainOrder) (table : Std.ExtTreeMap κ ν compare)
    (writes : List (κ × ν)) (deletions : List κ) :
    Std.ExtTreeMap κ ν compare :=
  match order with
  | .writesFirst => applyDeletions (applyWrites table writes) deletions
  | .deletionsFirst => applyWrites (applyDeletions table deletions) writes

@[simp] theorem flush_nil (order : DrainOrder)
    (table : Std.ExtTreeMap κ ν compare) : flush order table [] [] = table := by
  cases order <;> rfl

/-! ## Writes alone -/

theorem applyWrites_append (table : Std.ExtTreeMap κ ν compare)
    (writes : List (κ × ν)) (k : κ) (v : ν) :
    applyWrites table (writes ++ [(k, v)]) =
      (applyWrites table writes).insert k v := by
  simp [applyWrites]

section

variable {writes : List (κ × ν)} {k : κ}

theorem getElem?_applyWrites_of_not_mem {table : Std.ExtTreeMap κ ν compare}
    (h : k ∉ writes.map Prod.fst) :
    (applyWrites table writes)[k]? = table[k]? := by
  induction writes using List.reverseRecOn with
  | nil => rfl
  | append_singleton writes w ih =>
      simp only [List.map_append, List.mem_append, List.map_cons, List.map_nil,
        List.mem_singleton, not_or] at h
      rw [applyWrites_append, Std.ExtTreeMap.getElem?_insert, if_neg, ih h.1]
      rw [compare_eq_iff_eq]
      exact Ne.symm h.2

theorem getElem?_applyWrites_ne_none {table : Std.ExtTreeMap κ ν compare}
    (h : k ∈ writes.map Prod.fst) : (applyWrites table writes)[k]? ≠ none := by
  induction writes using List.reverseRecOn with
  | nil => exact absurd h List.not_mem_nil
  | append_singleton writes w ih =>
      rw [applyWrites_append, Std.ExtTreeMap.getElem?_insert]
      split
      · simp
      next hne =>
        rw [compare_eq_iff_eq] at hne
        simp only [List.map_append, List.mem_append, List.map_cons,
          List.map_nil, List.mem_singleton] at h
        exact ih (h.resolve_right (Ne.symm hne))

/-- Written keys that are all different each read the value written. -/
theorem getElem?_applyWrites_empty_eq_some_iff (h : (writes.map Prod.fst).Nodup)
    {v : ν} : (applyWrites ∅ writes)[k]? = some v ↔ (k, v) ∈ writes := by
  induction writes using List.reverseRecOn with
  | nil => simp [applyWrites]
  | append_singleton writes w ih =>
      simp only [List.map_append, List.map_cons, List.map_nil,
        List.nodup_append, List.mem_singleton] at h
      obtain ⟨hnodup, -, hdisj⟩ := h
      rw [applyWrites_append, Std.ExtTreeMap.getElem?_insert,
        List.mem_append, List.mem_singleton]
      by_cases hwk : w.1 = k
      · have hout : (k, v) ∉ writes := by
          intro hmem
          exact hdisj _ (List.mem_map_of_mem hmem) _ rfl hwk.symm
        simp [hwk, hout, Prod.ext_iff, eq_comm]
      · have hne : (k, v) ≠ w := by
          rintro rfl
          exact hwk rfl
        simp [hwk, hne, ih hnodup]

/-- A written key reads the same whatever table the writes go to. -/
theorem getElem?_applyWrites_congr {t t' : Std.ExtTreeMap κ ν compare}
    (h : t[k]? = t'[k]?) (writes : List (κ × ν)) :
    (applyWrites t writes)[k]? = (applyWrites t' writes)[k]? := by
  induction writes using List.reverseRecOn with
  | nil => exact h
  | append_singleton writes w ih =>
      rw [applyWrites_append, applyWrites_append,
        Std.ExtTreeMap.getElem?_insert, Std.ExtTreeMap.getElem?_insert, ih]

end

/-! ## Deletions alone -/

theorem getElem?_applyDeletions (table : Std.ExtTreeMap κ ν compare)
    (deletions : List κ) (k : κ) :
    (applyDeletions table deletions)[k]? =
      if k ∈ deletions then none else table[k]? := by
  induction deletions using List.reverseRecOn with
  | nil => simp [applyDeletions]
  | append_singleton deletions d ih =>
      have hstep : applyDeletions table (deletions ++ [d]) =
          (applyDeletions table deletions).erase d := by
        simp [applyDeletions]
      rw [hstep, Std.ExtTreeMap.getElem?_erase, ih]
      by_cases hdk : d = k
      · simp [hdk]
      · have hkd : k ≠ d := Ne.symm hdk
        simp [hdk, hkd]

/-! ## One more write, one more deletion -/

section Flush

variable (order : DrainOrder) (table : Std.ExtTreeMap κ ν compare)
  (writes : List (κ × ν)) (deletions : List κ)

theorem getElem?_flush_write (k : κ) (v : ν) (j : κ) :
    (flush order table (writes ++ [(k, v)]) deletions)[j]? =
      if j = k then
        if order = .writesFirst ∧ k ∈ deletions then none else some v
      else (flush order table writes deletions)[j]? := by
  by_cases hjk : j = k
  · subst hjk
    cases order with
    | writesFirst =>
        simp only [flush, getElem?_applyDeletions, applyWrites_append]
        simp
    | deletionsFirst =>
        simp only [flush, applyWrites_append]
        simp
  · have hkj : k ≠ j := Ne.symm hjk
    cases order with
    | writesFirst =>
        simp only [flush, getElem?_applyDeletions, applyWrites_append]
        simp [Std.ExtTreeMap.getElem?_insert, hkj, hjk]
    | deletionsFirst =>
        simp only [flush, applyWrites_append]
        simp [Std.ExtTreeMap.getElem?_insert, hkj, hjk]

theorem getElem?_flush_deletion_of_ne {k j : κ} (hjk : j ≠ k) :
    (flush order table writes (deletions ++ [k]))[j]? =
      (flush order table writes deletions)[j]? := by
  have hmem : j ∈ deletions ++ [k] ↔ j ∈ deletions := by simp [hjk]
  cases order with
  | writesFirst =>
      simp only [flush, getElem?_applyDeletions, hmem]
  | deletionsFirst =>
      refine getElem?_applyWrites_congr ?_ writes
      simp only [getElem?_applyDeletions, hmem]

theorem getElem?_flush_deletion_self (k : κ) :
    (flush order table writes (deletions ++ [k]))[k]? = none ↔
      ¬ (order = .deletionsFirst ∧ k ∈ writes.map Prod.fst) := by
  cases order with
  | writesFirst =>
      simp [flush, getElem?_applyDeletions]
  | deletionsFirst =>
      have hdeleted : (applyDeletions table (deletions ++ [k]))[k]? = none := by
        simp [getElem?_applyDeletions]
      constructor
      · rintro h ⟨-, hk⟩
        exact getElem?_applyWrites_ne_none hk h
      · intro h
        have hk : k ∉ writes.map Prod.fst := fun hk => h ⟨rfl, hk⟩
        rw [flush, getElem?_applyWrites_of_not_mem hk, hdeleted]

end Flush

end WriteBehind
