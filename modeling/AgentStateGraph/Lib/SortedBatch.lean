import Mathlib

/-!
# Sorted batches

The first elements of a list in the order of a key, as a query with an order
and a limit returns them: up to the last one taken, nothing is left out.
-/

namespace SortedBatch

variable {α κ : Type} [LinearOrder κ] (key : α → κ) (limit : ℕ)

def sort (l : List α) : List α := l.insertionSort fun a b => key a ≤ key b

def batch (l : List α) : List α := (sort key l).take limit

variable {key limit} {l : List α}

theorem pairwise_sort : (sort key l).Pairwise fun a b => key a ≤ key b := by
  have htotal : Std.Total fun a b : α => key a ≤ key b :=
    ⟨fun a b => le_total _ _⟩
  have htrans : IsTrans α fun a b => key a ≤ key b :=
    ⟨fun a b c => le_trans⟩
  exact List.pairwise_insertionSort _ _

variable {a last : α}

@[simp] theorem mem_sort : a ∈ sort key l ↔ a ∈ l :=
  (List.perm_insertionSort _ _).mem_iff

theorem map_sort {β : Type} {keyOf : β → κ} {f : α → β}
    (h : ∀ a, keyOf (f a) = key a) :
    (sort key l).map f = sort keyOf (l.map f) := by
  refine List.map_insertionSort (fun a b => key a ≤ key b)
    (fun a b => keyOf a ≤ keyOf b) f l ?_
  intro a _ b _
  rw [h a, h b]

theorem sort_eq_of_perm {l' : List α} (hkeys : (l.map key).Nodup)
    (h : l.Perm l') : sort key l = sort key l' := by
  have hl : (sort key l).Perm l := List.perm_insertionSort _ _
  have hl' : (sort key l').Perm l' := List.perm_insertionSort _ _
  refine (hl.trans (h.trans hl'.symm)).eq_of_pairwise ?_ pairwise_sort
    pairwise_sort
  intro a b ha hb hab hba
  exact List.inj_on_of_nodup_map hkeys (mem_sort.mp ha)
    (h.mem_iff.mpr (mem_sort.mp hb)) (le_antisymm hab hba)

theorem mem_of_mem_batch (h : a ∈ batch key limit l) : a ∈ l :=
  mem_sort.mp (List.mem_of_mem_take h)

theorem nodup_map_batch {β : Type} {f : α → β} (h : (l.map f).Nodup) :
    ((batch key limit l).map f).Nodup := by
  have hsort : ((sort key l).map f).Nodup :=
    ((List.perm_insertionSort _ _).map _).nodup_iff.mpr h
  exact hsort.sublist ((List.take_sublist _ _).map _)

theorem le_getLast (hlast : (batch key limit l).getLast? = some last)
    (ha : a ∈ batch key limit l) : key a ≤ key last := by
  have hsorted : (batch key limit l).Pairwise fun a b => key a ≤ key b :=
    pairwise_sort.sublist (List.take_sublist _ _)
  obtain ⟨before, heq⟩ := List.getLast?_eq_some_iff.mp hlast
  rw [heq] at hsorted ha
  rcases List.mem_append.mp ha with ha | ha
  · exact (List.pairwise_append.mp hsorted).2.2 a ha last
      (List.mem_singleton_self last)
  · rw [List.mem_singleton.mp ha]

theorem mem_batch_or_le (hlast : (batch key limit l).getLast? = some last)
    (ha : a ∈ l) : a ∈ batch key limit l ∨ key last ≤ key a := by
  have hsorted : ((sort key l).take limit ++ (sort key l).drop limit).Pairwise
      fun a b => key a ≤ key b := by
    rw [List.take_append_drop]
    exact pairwise_sort
  have hmem : a ∈ (sort key l).take limit ++ (sort key l).drop limit := by
    rw [List.take_append_drop]
    exact mem_sort.mpr ha
  rcases List.mem_append.mp hmem with ha | ha
  · exact Or.inl ha
  · exact Or.inr ((List.pairwise_append.mp hsorted).2.2 last
      (List.mem_of_getLast? hlast) a ha)

theorem mem_batch_of_le (hkey : ∀ a ∈ l, ∀ b ∈ l, key a = key b → a = b)
    (hlast : (batch key limit l).getLast? = some last) (ha : a ∈ l)
    (hle : key a ≤ key last) : a ∈ batch key limit l := by
  have hmem := List.mem_of_getLast? hlast
  rcases mem_batch_or_le hlast ha with h | hge
  · exact h
  · rw [hkey a ha last (mem_of_mem_batch hmem) (le_antisymm hle hge)]
    exact hmem

/-! ## The first of the elements kept -/

theorem pairwise_lt_sort (hkeys : (l.map key).Nodup) :
    (sort key l).Pairwise fun a b => key a < key b := by
  have hdistinct : (sort key l).Pairwise fun a b => key a ≠ key b :=
    List.pairwise_map.mp
      (((List.perm_insertionSort _ l).map key).nodup_iff.mpr hkeys)
  refine (pairwise_sort.and hdistinct).imp ?_
  rintro a b ⟨hle, hne⟩
  exact lt_of_le_of_ne hle hne

theorem mem_batch_iff (hkeys : (l.map key).Nodup) (ha : a ∈ l) :
    a ∈ batch key limit l ↔ l.countP (fun b => key b < key a) < limit := by
  have hsorts : a ∈ sort key l := mem_sort.mpr ha
  obtain ⟨before, after, hsort⟩ := List.append_of_mem hsorts
  have hsorted := pairwise_lt_sort hkeys
  rw [hsort, List.pairwise_append, List.pairwise_cons] at hsorted
  obtain ⟨-, ⟨hafter, -⟩, hbefore⟩ := hsorted
  have hcount : l.countP (fun b => key b < key a) = before.length := by
    have hperm : (sort key l).Perm l := List.perm_insertionSort _ _
    have hbeforeAll : before.countP (fun b => decide (key b < key a)) =
        before.length := by
      rw [List.countP_eq_length]
      intro b hb
      simpa using hbefore b hb a (by simp)
    have hafterNone : after.countP (fun b => decide (key b < key a)) = 0 := by
      rw [List.countP_eq_zero]
      intro b hb
      simpa using (hafter b hb).le
    rw [← hperm.countP_eq, hsort, List.countP_append, List.countP_cons,
      hbeforeAll, hafterNone]
    simp
  have hmem : a ∈ batch key limit l ↔ before.length < limit := by
    unfold batch
    rw [hsort]
    by_cases hlt : before.length < limit
    · obtain ⟨k, hk⟩ := Nat.exists_eq_add_of_lt hlt
      have htake : a ∈ (before ++ a :: after).take limit := by
        rw [List.take_append]
        refine List.mem_append_right _ ?_
        rw [hk, show before.length + k + 1 - before.length = k + 1 by omega]
        simp
      simp [htake, hlt]
    · rw [List.take_append_of_le_length (not_lt.mp hlt)]
      refine iff_of_false ?_ hlt
      intro htake
      exact (hbefore a (List.mem_of_mem_take htake) a (by simp)).ne rfl
  rw [hmem, hcount]

/-- The first `limit` elements in the order of the key. -/
structure Firsts (key : α → κ) (limit : ℕ) (l first : List α) : Prop where
  sorted : first.Pairwise fun a b => key a < key b
  length : first.length = min limit l.length
  mem : ∀ a ∈ first, a ∈ l
  before : ∀ a ∈ l, a ∉ first → ∀ b ∈ first, key b < key a

theorem firsts_batch (hkeys : (l.map key).Nodup) :
    Firsts key limit l (batch key limit l) where
  sorted := (pairwise_lt_sort hkeys).sublist (List.take_sublist _ _)
  length := by
    rw [batch, List.length_take, sort, List.length_insertionSort]
  mem _ ha := mem_of_mem_batch ha
  before := by
    intro a ha hnot b hb
    obtain ⟨last, hlast⟩ : ∃ last,
        (batch key limit l).getLast? = some last :=
      Option.ne_none_iff_exists'.mp fun hnone => by
        simp [List.getLast?_eq_none_iff.mp hnone] at hb
    rcases mem_batch_or_le hlast ha with hmem | hle
    · exact absurd hmem hnot
    · have hne : key b ≠ key a := by
        intro heq
        obtain rfl := List.inj_on_of_nodup_map hkeys (mem_of_mem_batch hb) ha heq
        exact hnot hb
      exact lt_of_le_of_ne ((le_getLast hlast hb).trans hle) hne

theorem firsts_filter_iff_length (hkeys : (l.map key).Nodup) {p : α → Bool} :
    Firsts key limit (l.filter p) ((batch key limit l).filter p) ↔
      ((batch key limit l).filter p).length = min limit (l.filter p).length := by
  refine ⟨fun h => h.length, fun hlength => ?_⟩
  have hbatch : Firsts key limit l (batch key limit l) := firsts_batch hkeys
  refine ⟨hbatch.sorted.sublist (List.filter_sublist), hlength, ?_, ?_⟩
  · intro a ha
    rw [List.mem_filter] at ha ⊢
    exact ⟨hbatch.mem a ha.1, ha.2⟩
  · intro a ha hnot b hb
    rw [List.mem_filter] at ha hb hnot
    exact hbatch.before a ha.1 (fun hmem => hnot ⟨hmem, ha.2⟩) b hb.1

theorem firsts_filter_iff (hkeys : (l.map key).Nodup) {p : α → Bool} :
    Firsts key limit (l.filter p) ((batch key limit l).filter p) ↔
      (∀ a ∈ l, p a = true → l.countP (fun b => key b < key a) < limit) ∨
        ∀ a ∈ l, l.countP (fun b => key b < key a) < limit → p a = true := by
  have hall : (∀ a ∈ l, p a = true →
      l.countP (fun b => key b < key a) < limit) ↔
      ((sort key l).drop limit).filter p = [] := by
    have hnodup : (sort key l).Nodup :=
      (pairwise_lt_sort hkeys).imp fun hab heq => hab.ne (congrArg key heq)
    rw [List.filter_eq_nil_iff]
    constructor
    · intro h a ha hp
      have hmem : a ∈ l := mem_sort.mp (List.mem_of_mem_drop ha)
      have htake := (mem_batch_iff hkeys hmem).mpr (h a hmem hp)
      exact List.disjoint_take_drop hnodup le_rfl htake ha
    · intro h a ha hp
      rw [← mem_batch_iff hkeys ha]
      have hmem : a ∈ sort key l := mem_sort.mpr ha
      rw [← List.take_append_drop limit (sort key l), List.mem_append] at hmem
      exact hmem.resolve_right fun hdrop => h a hdrop hp
  have hwhole : (∀ a ∈ l, l.countP (fun b => key b < key a) < limit →
      p a = true) ↔
      ((batch key limit l).filter p).length = (batch key limit l).length := by
    rw [List.length_filter_eq_length_iff]
    constructor
    · intro h a ha
      exact h a (mem_of_mem_batch ha)
        ((mem_batch_iff hkeys (mem_of_mem_batch ha)).mp ha)
    · intro h a ha hrank
      exact h a ((mem_batch_iff hkeys ha).mpr hrank)
  have hsplit : (l.filter p).length = ((batch key limit l).filter p).length +
      (((sort key l).drop limit).filter p).length := by
    have hperm : (sort key l).Perm l := List.perm_insertionSort _ _
    rw [← (hperm.filter p).length_eq, batch, ← List.length_append,
      ← List.filter_append, List.take_append_drop]
  have hle : ((batch key limit l).filter p).length ≤
      (batch key limit l).length := List.length_filter_le _ _
  have hbatch : (batch key limit l).length = min limit l.length :=
    (firsts_batch hkeys).length
  have hrest : (((sort key l).drop limit).filter p).length ≤
      l.length - limit := by
    have hdrop := List.length_filter_le p ((sort key l).drop limit)
    rwa [List.length_drop, sort, List.length_insertionSort] at hdrop
  rw [firsts_filter_iff_length hkeys, hall, hwhole, ← List.length_eq_zero_iff,
    hsplit]
  omega

end SortedBatch
