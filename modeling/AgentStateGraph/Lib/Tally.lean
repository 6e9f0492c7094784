import Mathlib

/-!
# Tallies

The amounts of a list added up by key.  However the keys are chosen, the sums
add up to the amount of the whole list.
-/

namespace Tally

variable {α κ ν : Type} [Ord κ] [Std.TransOrd κ] [Std.LawfulEqOrd κ]
  [DecidableEq κ] [AddCommMonoid ν]

abbrev Sums (κ ν : Type) [Ord κ] := Std.ExtTreeMap κ ν compare

/-- What is under a key, or nothing. -/
def Sums.at (m : Sums κ ν) (k : κ) : ν := m[k]?.getD 0

def Sums.add (m : Sums κ ν) (k : κ) (amount : ν) : Sums κ ν :=
  m.insert k (m.at k + amount)

def tally (key : α → κ) (amount : α → ν) (l : List α) : Sums κ ν :=
  l.foldl (fun m a => m.add (key a) (amount a)) ∅

def Sums.total (m : Sums κ ν) : ν := (m.toList.map Prod.snd).sum

theorem total_eq_sum (m : Sums κ ν) {keys : Finset κ}
    (h : ∀ k ∈ m, k ∈ keys) : m.total = ∑ k ∈ keys, m.at k := by
  have hnodup : (m.toList.map Prod.fst).Nodup := by
    rw [Std.ExtTreeMap.map_fst_toList_eq_keys]
    exact Std.ExtTreeMap.nodup_keys
  have htotal : m.total = ∑ k ∈ (m.toList.map Prod.fst).toFinset, m.at k := by
    rw [List.sum_toFinset _ hnodup, List.map_map, Sums.total]
    congr 1
    refine List.map_congr_left fun e he => ?_
    have hget : m[e.1]? = some e.2 :=
      Std.ExtTreeMap.mem_toList_iff_getElem?_eq_some.mp he
    simp [Sums.at, hget]
  rw [htotal]
  refine Finset.sum_subset ?_ ?_
  · intro k hk
    rw [List.mem_toFinset, Std.ExtTreeMap.map_fst_toList_eq_keys,
      Std.ExtTreeMap.mem_keys] at hk
    exact h k hk
  · intro k _ hk
    rw [List.mem_toFinset, Std.ExtTreeMap.map_fst_toList_eq_keys,
      Std.ExtTreeMap.mem_keys] at hk
    simp [Sums.at, Std.ExtTreeMap.getElem?_eq_none hk]

theorem at_add (m : Sums κ ν) (k k' : κ) (amount : ν) :
    (m.add k amount).at k' = m.at k' + if k' = k then amount else 0 := by
  unfold Sums.add Sums.at
  rw [Std.ExtTreeMap.getElem?_insert]
  by_cases hk : k' = k
  · subst hk
    simp
  · have hne : compare k k' ≠ .eq := fun heq =>
      hk (Std.LawfulEqCmp.eq_of_compare heq).symm
    simp [hk, hne]

@[simp] theorem total_add (m : Sums κ ν) (k : κ) (amount : ν) :
    (m.add k amount).total = m.total + amount := by
  have hkeys : ∀ k' ∈ m, k' ∈ insert k m.keys.toFinset := by
    intro k' hk'
    simp [hk']
  have hkeysAdd : ∀ k' ∈ m.add k amount, k' ∈ insert k m.keys.toFinset := by
    intro k' hk'
    rw [Sums.add, Std.ExtTreeMap.mem_insert, Std.LawfulEqCmp.compare_eq_iff_eq] at hk'
    rcases hk' with rfl | hk'
    · simp
    · exact hkeys k' hk'
  rw [total_eq_sum _ hkeysAdd, total_eq_sum m hkeys]
  simp only [at_add, Finset.sum_add_distrib]
  congr 1
  rw [Finset.sum_ite_eq']
  simp

theorem total_tally (key : α → κ) (amount : α → ν) (l : List α) :
    (tally key amount l).total = (l.map amount).sum := by
  induction l using List.reverseRecOn with
  | nil => rfl
  | append_singleton l a ih =>
      have hlast : tally key amount (l ++ [a]) =
          (tally key amount l).add (key a) (amount a) := by
        simp [tally]
      rw [hlast, total_add, ih]
      simp

end Tally
