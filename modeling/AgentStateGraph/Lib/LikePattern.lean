import Mathlib

/-!
# The `LIKE` operator of SQLite

In a pattern, a percent sign stands for any sequence of characters and an
underscore for any one character.  Every other character stands for itself,
and ASCII letters match in either case.
-/

namespace LikePattern

/-- Whether a text as a whole is like a pattern. -/
def like : List Char → List Char → Bool
  | [], s => s.isEmpty
  | c :: p, s =>
      if c = '%' then s.tails.any fun t => like p t
      else
        match s with
        | [] => false
        | d :: s => (c == '_' || c.toLower == d.toLower) && like p s

theorem like_percent_cons (p s : List Char) :
    like ('%' :: p) s = true ↔ ∃ x y, s = x ++ y ∧ like p y = true := by
  simp only [like, if_pos, List.any_eq_true, List.mem_tails]
  constructor
  · rintro ⟨y, ⟨x, rfl⟩, hy⟩
    exact ⟨x, y, rfl, hy⟩
  · rintro ⟨x, y, rfl, hy⟩
    exact ⟨y, List.suffix_append x y, hy⟩

theorem like_cons_of_ne {c : Char} (hc : c ≠ '%') (p s : List Char) :
    like (c :: p) s = true ↔
      ∃ d rest, s = d :: rest ∧ (c = '_' ∨ c.toLower = d.toLower) ∧
        like p rest = true := by
  cases s with
  | nil => simp [like, hc]
  | cons d s =>
      simp only [like, if_neg hc, Bool.and_eq_true, Bool.or_eq_true, beq_iff_eq,
        List.cons.injEq]
      constructor
      · rintro ⟨hmatch, hrest⟩
        exact ⟨d, s, ⟨rfl, rfl⟩, hmatch, hrest⟩
      · rintro ⟨_, _, ⟨rfl, rfl⟩, hmatch, hrest⟩
        exact ⟨hmatch, hrest⟩

theorem like_self (p : List Char) : like p p = true := by
  induction p with
  | nil => rfl
  | cons c p ih =>
      by_cases hc : c = '%'
      · subst hc
        exact (like_percent_cons p _).mpr ⟨['%'], p, rfl, ih⟩
      · exact (like_cons_of_ne hc p _).mpr ⟨c, p, rfl, Or.inr rfl, ih⟩

/-- A text is like two patterns in a row when it falls in two parts that are
like them. -/
theorem like_append (p q s : List Char) :
    like (p ++ q) s = true ↔
      ∃ x y, s = x ++ y ∧ like p x = true ∧ like q y = true := by
  induction p generalizing s with
  | nil =>
      constructor
      · intro h
        exact ⟨[], s, rfl, rfl, h⟩
      · rintro ⟨x, y, rfl, hx, hy⟩
        rw [List.isEmpty_iff.mp hx]
        exact hy
  | cons c p ih =>
      by_cases hc : c = '%'
      · subst hc
        rw [List.cons_append, like_percent_cons]
        constructor
        · rintro ⟨u, v, rfl, hv⟩
          obtain ⟨x, y, rfl, hx, hy⟩ := (ih v).mp hv
          refine ⟨u ++ x, y, by rw [List.append_assoc], ?_, hy⟩
          exact (like_percent_cons p _).mpr ⟨u, x, rfl, hx⟩
        · rintro ⟨x, y, rfl, hx, hy⟩
          obtain ⟨u, v, rfl, hv⟩ := (like_percent_cons p x).mp hx
          exact ⟨u, v ++ y, List.append_assoc _ _ _,
            (ih _).mpr ⟨v, y, rfl, hv, hy⟩⟩
      · rw [List.cons_append, like_cons_of_ne hc]
        constructor
        · rintro ⟨d, rest, rfl, hmatch, hrest⟩
          obtain ⟨x, y, rfl, hx, hy⟩ := (ih rest).mp hrest
          refine ⟨d :: x, y, rfl, ?_, hy⟩
          exact (like_cons_of_ne hc p _).mpr ⟨d, x, rfl, hmatch, hx⟩
        · rintro ⟨x, y, rfl, hx, hy⟩
          obtain ⟨d, v, rfl, hmatch, hv⟩ := (like_cons_of_ne hc p x).mp hx
          exact ⟨d, v ++ y, rfl, hmatch, (ih _).mpr ⟨v, y, rfl, hv, hy⟩⟩

theorem like_percent (s : List Char) : like ['%'] s = true :=
  (like_percent_cons [] s).mpr ⟨s, [], (List.append_nil s).symm, rfl⟩

/-- A pattern followed by a percent sign matches what some first part of the
text is like. -/
theorem like_append_percent (p s : List Char) :
    like (p ++ ['%']) s = true ↔ ∃ x, x <+: s ∧ like p x = true := by
  rw [like_append]
  constructor
  · rintro ⟨x, y, rfl, hx, -⟩
    exact ⟨x, List.prefix_append x y, hx⟩
  · rintro ⟨x, ⟨y, rfl⟩, hx⟩
    exact ⟨x, y, rfl, hx, like_percent y⟩

theorem toLower_eq_slash {d : Char} (h : '/'.toLower = d.toLower) : d = '/' := by
  have hslash : '/'.toLower = '/' := by decide
  rw [hslash] at h
  unfold Char.toLower at h
  split at h
  next hd =>
    exfalso
    have hval := congrArg Char.toNat h
    have h₁ : 65 ≤ d.toNat := UInt32.le_iff_toNat_le.mp hd.1
    have h₂ : d.toNat ≤ 90 := UInt32.le_iff_toNat_le.mp hd.2
    simp at hval
    omega
  next => exact h.symm

theorem like_append_slash_percent (p s : List Char) :
    like (p ++ ['/', '%']) s = true ↔
      ∃ x y, s = x ++ '/' :: y ∧ like p x = true := by
  rw [like_append]
  constructor
  · rintro ⟨x, y, rfl, hx, hy⟩
    obtain ⟨d, rest, rfl, hd, -⟩ :=
      (like_cons_of_ne (by decide) ['%'] y).mp hy
    rcases hd with hd | hd
    · exact absurd hd (by decide)
    · rw [toLower_eq_slash hd]
      exact ⟨x, rest, rfl, hx⟩
  · rintro ⟨x, y, rfl, hx⟩
    refine ⟨x, '/' :: y, rfl, hx, ?_⟩
    exact (like_cons_of_ne (by decide) ['%'] _).mpr
      ⟨'/', y, rfl, Or.inr rfl, like_percent y⟩

end LikePattern
