import AgentStateGraph.Lib.KeyedMap

/-!
# Content-addressed maps

A finite map that stores every value under its own address.  Such maps only
grow: writing a value twice changes nothing, and a larger map answers every
question a smaller one answered in the same way.  The order of this module
says so, and operations that only read are monotone for it.
-/

/-- A finite map whose every value stands at its own address. -/
structure AddressedMap (κ α : Type) [LinearOrder κ] (address : α → κ) where
  entries : Std.ExtTreeMap κ α compare
  addressed : ∀ k a, entries[k]? = some a → address a = k

namespace AddressedMap

variable {κ α : Type} [LinearOrder κ] {address : α → κ}

instance [DecidableEq α] : DecidableEq (AddressedMap κ α address) :=
  fun s t => decidable_of_iff (s.entries = t.entries) (by
    cases s
    cases t
    simp)

def get (s : AddressedMap κ α address) (k : κ) : Option α := s.entries[k]?

def empty : AddressedMap κ α address where
  entries := ∅
  addressed k a h := by simp at h

/-- Store a value at its address. -/
def put (s : AddressedMap κ α address) (a : α) : AddressedMap κ α address where
  entries := s.entries.insert (address a) a
  addressed k b h := by
    rw [Std.ExtTreeMap.getElem?_insert] at h
    split at h
    next heq =>
      simp only [Option.some.injEq] at h
      rw [← h]
      exact Std.LawfulEqCmp.eq_of_compare heq
    next => exact s.addressed k b h

/-- Take out what is stored at an address. -/
def erase (s : AddressedMap κ α address) (k : κ) :
    AddressedMap κ α address where
  entries := s.entries.erase k
  addressed j b h := by
    rw [Std.ExtTreeMap.getElem?_erase] at h
    split at h
    · contradiction
    · exact s.addressed j b h

/-- Store several values, in order. -/
def putAll (s : AddressedMap κ α address) (as : List α) :
    AddressedMap κ α address :=
  as.foldl put s

theorem address_eq {s : AddressedMap κ α address} {k : κ} {a : α}
    (h : s.get k = some a) : address a = k :=
  s.addressed k a h

@[simp] theorem get_empty (k : κ) :
    (empty : AddressedMap κ α address).get k = none := by
  simp [get, empty]

theorem get_put (s : AddressedMap κ α address) (a : α) (k : κ) :
    (s.put a).get k = if address a = k then some a else s.get k := by
  simp only [get, put, Std.ExtTreeMap.getElem?_insert]
  congr 1
  simp

@[simp] theorem get_put_self (s : AddressedMap κ α address) (a : α) :
    (s.put a).get (address a) = some a := by
  simp [get_put]

theorem get_erase (s : AddressedMap κ α address) (k j : κ) :
    (s.erase k).get j = if k = j then none else s.get j := by
  simp only [get, erase, Std.ExtTreeMap.getElem?_erase]
  congr 1
  simp

theorem get_foldl_erase (s : AddressedMap κ α address) (ks : List κ) (j : κ) :
    (ks.foldl erase s).get j = if j ∈ ks then none else s.get j := by
  induction ks generalizing s with
  | nil => simp
  | cons k ks ih =>
      rw [List.foldl_cons, ih, get_erase]
      by_cases hks : j ∈ ks
      · simp [hks]
      · by_cases hk : k = j
        · simp [hks, hk]
        · simp [hks, hk, Ne.symm hk]

theorem get_putAll {s : AddressedMap κ α address} {as : List α} {k : κ} {a : α}
    (h : (s.putAll as).get k = some a) : s.get k = some a ∨ a ∈ as := by
  induction as generalizing s with
  | nil => exact Or.inl h
  | cons b as ih =>
      rcases ih (s := s.put b) h with h | h
      · rw [get_put] at h
        split at h
        · simp only [Option.some.injEq] at h
          exact Or.inr (by simp [h])
        · exact Or.inl h
      · exact Or.inr (List.mem_cons_of_mem _ h)

/-! ## Growth -/

/-- `t` answers everything `s` answers, and alike. -/
instance : PartialOrder (AddressedMap κ α address) where
  le s t := ∀ k a, s.get k = some a → t.get k = some a
  le_refl _ _ _ h := h
  le_trans _ _ _ h₁ h₂ k a h := h₂ k a (h₁ k a h)
  le_antisymm s t h₁ h₂ := by
    have hentries : s.entries = t.entries := by
      apply Std.ExtTreeMap.ext_getElem?
      intro k
      exact Option.ext fun a => ⟨h₁ k a, h₂ k a⟩
    cases s
    cases t
    simp_all

theorem get_eq_of_le {s t : AddressedMap κ α address} (hle : s ≤ t) {k : κ}
    (h : s.get k ≠ none) : t.get k = s.get k := by
  obtain ⟨a, ha⟩ := Option.ne_none_iff_exists'.mp h
  rw [ha, hle k a ha]

theorem put_mono {s t : AddressedMap κ α address} (hle : s ≤ t) (a : α) :
    s.put a ≤ t.put a := by
  intro k b h
  rw [get_put] at h ⊢
  split at h
  next heq => rw [if_pos heq, h]
  next hne => rw [if_neg hne, hle k b h]

theorem putAll_mono {s t : AddressedMap κ α address} (hle : s ≤ t)
    (as : List α) : s.putAll as ≤ t.putAll as := by
  induction as generalizing s t with
  | nil => exact hle
  | cons a as ih => exact ih (put_mono hle a)

section Injective

variable (haddress : Function.Injective address)
include haddress

theorem le_put (s : AddressedMap κ α address) (a : α) : s ≤ s.put a := by
  intro k b h
  rw [get_put]
  split
  next heq =>
    rw [haddress (heq.trans (address_eq h).symm)]
  next => exact h

theorem put_of_get {s : AddressedMap κ α address} {a : α}
    (h : s.get (address a) = some a) : s.put a = s := by
  apply le_antisymm
  · intro k b hb
    rw [get_put] at hb
    split at hb
    next heq =>
      simp only [Option.some.injEq] at hb
      rw [← hb, ← heq, h]
    next => exact hb
  · exact le_put haddress s a

theorem le_putAll (s : AddressedMap κ α address) (as : List α) :
    s ≤ s.putAll as := by
  induction as generalizing s with
  | nil => exact le_refl s
  | cons a as ih => exact (le_put haddress s a).trans (ih (s.put a))

theorem get_putAll_of_mem (s : AddressedMap κ α address) {as : List α} {a : α}
    (h : a ∈ as) : (s.putAll as).get (address a) = some a := by
  induction as generalizing s with
  | nil => simp at h
  | cons b as ih =>
      rcases List.mem_cons.mp h with rfl | h
      · exact le_putAll haddress (s.put a) as _ _ (get_put_self s a)
      · exact ih (s.put b) h

end Injective

/-! ## Counting what the values point at -/

/-- Any vertices together have no more successors than the stored values
have. -/
theorem sum_length_le {β : Type} (s : AddressedMap κ α address)
    (f : α → List β) (vertices : Finset κ) :
    ∑ x ∈ vertices, ((s.get x).elim [] f).length ≤
      (s.entries.toList.map fun e => (f e.2).length).sum := by
  have hsum := KeyedMap.sum_le_toList s.entries (fun a => (f a).length) vertices
  refine le_trans (Finset.sum_le_sum fun x _ => ?_) hsum
  unfold get
  cases s.entries[x]? <;> simp

end AddressedMap
