import Mathlib

/-!
# Peeling fallible computations apart

A `do` block in `Except` succeeds exactly when each of its steps does.
-/

namespace Except

variable {ε α β : Type}

theorem bind_eq_ok_iff {x : Except ε α} {f : α → Except ε β} {b : β} :
    x >>= f = .ok b ↔ ∃ a, x = .ok a ∧ f a = .ok b := by
  cases x with
  | error e => simp [bind, Except.bind]
  | ok a => simp [bind, Except.bind]

theorem bind_eq_error_iff {x : Except ε α} {f : α → Except ε β} {e : ε} :
    x >>= f = .error e ↔ x = .error e ∨ ∃ a, x = .ok a ∧ f a = .error e := by
  cases x with
  | error e' => simp [bind, Except.bind]
  | ok a => simp [bind, Except.bind]

@[simp] theorem ok_bind (a : α) (f : α → Except ε β) :
    (Except.ok a >>= f) = f a := rfl

@[simp] theorem error_bind (e : ε) (f : α → Except ε β) :
    ((Except.error e : Except ε α) >>= f) = .error e := rfl

/-! ## Two loops side by side -/

variable {σ γ : Type}

variable {R : α → β → Prop} {l : List α} {l' : List β} {f : α → Except ε γ}
  {acc : σ} {r : List γ}

theorem exists_of_mem_forall₂ (h : List.Forall₂ R l l') {x : α} (hx : x ∈ l) :
    ∃ y ∈ l', R x y := by
  induction h with
  | nil => simp at hx
  | @cons a b l l' hab _ ih =>
      rcases List.mem_cons.mp hx with rfl | hx
      · exact ⟨b, by simp, hab⟩
      · obtain ⟨y, hy, hxy⟩ := ih hx
        exact ⟨y, by simp [hy], hxy⟩

/-- Loops over related lists agree when each pair of steps does, on the
accumulators an invariant of the first loop allows. -/
theorem foldlM_congr₂ {P : σ → Prop} {f : σ → α → Except ε σ}
    {g : σ → β → Except ε σ}
    (hstep : ∀ acc x y, R x y → P acc → f acc x = g acc y)
    (hkeep : ∀ acc x acc', P acc → f acc x = .ok acc' → P acc')
    (h : List.Forall₂ R l l') (hacc : P acc) :
    l.foldlM f acc = l'.foldlM g acc := by
  induction h generalizing acc with
  | nil => rfl
  | @cons x y l l' hxy _ ih =>
      rw [List.foldlM_cons, List.foldlM_cons, ← hstep acc x y hxy hacc]
      cases hf : f acc x with
      | error e => rfl
      | ok acc' =>
          rw [ok_bind, ok_bind]
          exact ih (hkeep acc x acc' hacc hf)

theorem mapM_congr₂ {g : β → Except ε γ} (hstep : ∀ x y, R x y → f x = g y)
    (h : List.Forall₂ R l l') : l.mapM f = l'.mapM g := by
  induction h with
  | nil => rfl
  | @cons x y l l' hxy _ ih =>
      rw [List.mapM_cons, List.mapM_cons, hstep x y hxy, ih]

theorem mapM_congr {g : α → Except ε γ} (h : ∀ a ∈ l, f a = g a) :
    l.mapM f = l.mapM g := by
  refine mapM_congr₂ (R := fun a b => a = b ∧ a ∈ l) ?_
    (List.forall₂_same.mpr fun a ha => ⟨rfl, ha⟩)
  rintro a _ ⟨rfl, ha⟩
  exact h a ha

/-- Loops over related lists succeed together with related results when each
pair of steps does. -/
theorem exists_mapM_forall₂ {δ : Type} {Q : γ → δ → Prop} {g : β → Except ε δ}
    (hstep : ∀ x y, R x y → ∃ a b, f x = .ok a ∧ g y = .ok b ∧ Q a b)
    (h : List.Forall₂ R l l') :
    ∃ r r', l.mapM f = .ok r ∧ l'.mapM g = .ok r' ∧ List.Forall₂ Q r r' := by
  induction h with
  | nil => exact ⟨[], [], rfl, rfl, List.Forall₂.nil⟩
  | @cons x y l l' hxy _ ih =>
      obtain ⟨a, b, ha, hb, hab⟩ := hstep x y hxy
      obtain ⟨r, r', hr, hr', hrest⟩ := ih
      refine ⟨a :: r, b :: r', ?_, ?_, List.Forall₂.cons hab hrest⟩
      · rw [List.mapM_cons, ha, hr]
        rfl
      · rw [List.mapM_cons, hb, hr']
        rfl

theorem exists_mapM_ok (h : ∀ x ∈ l, ∃ y, f x = .ok y) :
    ∃ r, l.mapM f = .ok r ∧ List.Forall₂ (fun x y => f x = .ok y) l r := by
  have hself : List.Forall₂ (fun x y => x = y ∧ x ∈ l) l l :=
    List.forall₂_same.mpr fun x hx => ⟨rfl, hx⟩
  obtain ⟨r, -, hr, -, -⟩ := exists_mapM_forall₂ (f := f) (g := f)
    (Q := fun _ _ => True)
    (by
      rintro x _ ⟨rfl, hx⟩
      obtain ⟨y, hy⟩ := h x hx
      exact ⟨y, y, hy, hy, trivial⟩) hself
  refine ⟨r, hr, ?_⟩
  clear h hself
  induction l generalizing r with
  | nil =>
      cases hr
      exact List.Forall₂.nil
  | cons x l ih =>
      rw [List.mapM_cons, bind_eq_ok_iff] at hr
      obtain ⟨y, hy, hrest⟩ := hr
      obtain ⟨ys, hys, hcons⟩ := bind_eq_ok_iff.mp hrest
      cases hcons
      exact List.Forall₂.cons hy (ih ys hys)

/-- A loop whose steps all succeed collects what they return. -/
theorem mapM_eq_ok {g : α → γ} (h : ∀ x ∈ l, f x = .ok (g x)) :
    l.mapM f = .ok (l.map g) := by
  induction l with
  | nil => rfl
  | cons x l ih =>
      rw [List.mapM_cons, h x (by simp), ih fun y hy => h y (by simp [hy])]
      rfl

/-- A computation that succeeds still does when its parts succeed with the
same results. -/
theorem bind_mono {x y : Except ε α} {f g : α → Except ε β} {b : β}
    (hx : ∀ a, x = .ok a → y = .ok a)
    (hf : ∀ a, f a = .ok b → g a = .ok b) (h : x >>= f = .ok b) :
    y >>= g = .ok b := by
  obtain ⟨a, ha, hb⟩ := bind_eq_ok_iff.mp h
  exact bind_eq_ok_iff.mpr ⟨a, hx a ha, hf a hb⟩

theorem mapM_mono {g : α → Except ε γ}
    (hfg : ∀ x ∈ l, ∀ y, f x = .ok y → g x = .ok y) (h : l.mapM f = .ok r) :
    l.mapM g = .ok r := by
  induction l generalizing r with
  | nil => exact h
  | cons x l ih =>
      rw [List.mapM_cons] at h ⊢
      refine bind_mono (hfg x (by simp)) ?_ h
      intro a ha
      refine bind_mono ?_ (fun _ hr => hr) ha
      intro rest hrest
      exact ih (fun y hy => hfg y (by simp [hy])) hrest

/-- What a loop collects is returned by its steps. -/
theorem exists_of_mem_mapM (h : l.mapM f = .ok r) {y : γ} (hy : y ∈ r) :
    ∃ x ∈ l, f x = .ok y := by
  induction l generalizing r with
  | nil =>
      cases h
      simp at hy
  | cons x l ih =>
      rw [List.mapM_cons] at h
      obtain ⟨a, ha, h⟩ := bind_eq_ok_iff.mp h
      obtain ⟨rest, hrest, h⟩ := bind_eq_ok_iff.mp h
      cases h
      rcases List.mem_cons.mp hy with rfl | hy
      · exact ⟨x, by simp, ha⟩
      · obtain ⟨x', hx', hfx⟩ := ih hrest hy
        exact ⟨x', List.mem_cons_of_mem _ hx', hfx⟩

/-- What a loop collects, when each step can only return one thing. -/
theorem eq_map_of_mapM_eq_ok {g : α → γ} (h : l.mapM f = .ok r)
    (hf : ∀ x ∈ l, ∀ y, f x = .ok y → y = g x) : r = l.map g := by
  induction l generalizing r with
  | nil =>
      cases h
      rfl
  | cons x l ih =>
      rw [List.mapM_cons] at h
      obtain ⟨a, ha, h⟩ := bind_eq_ok_iff.mp h
      obtain ⟨rest, hrest, h⟩ := bind_eq_ok_iff.mp h
      cases h
      rw [List.map_cons, hf x (by simp) a ha,
        ih hrest fun y hy => hf y (by simp [hy])]

theorem foldlM_invariant {P : σ → Prop} {f : σ → α → Except ε σ}
    (hkeep : ∀ acc, ∀ x ∈ l, ∀ acc', P acc → f acc x = .ok acc' → P acc')
    {acc' : σ} (hacc : P acc) (h : l.foldlM f acc = .ok acc') : P acc' := by
  induction l generalizing acc with
  | nil =>
      cases h
      exact hacc
  | cons x l ih =>
      rw [List.foldlM_cons, bind_eq_ok_iff] at h
      obtain ⟨mid, hmid, hrest⟩ := h
      exact ih (fun acc y hy => hkeep acc y (by simp [hy]))
        (hkeep acc x (by simp) mid hacc hmid) hrest

/-- A loop that fails does so at one of its steps. -/
theorem mapM_eq_error {e : ε} (h : l.mapM f = .error e) :
    ∃ x ∈ l, f x = .error e := by
  induction l with
  | nil => simp [pure, Except.pure] at h
  | cons x l ih =>
      rw [List.mapM_cons] at h
      rcases bind_eq_error_iff.mp h with hx | ⟨y, -, h⟩
      · exact ⟨x, by simp, hx⟩
      · rcases bind_eq_error_iff.mp h with hrest | ⟨rest, -, h⟩
        · obtain ⟨z, hz, hfz⟩ := ih hrest
          exact ⟨z, List.mem_cons_of_mem _ hz, hfz⟩
        · simp [pure, Except.pure] at h

theorem foldlM_mono {f g : σ → α → Except ε σ}
    (hfg : ∀ acc, ∀ x ∈ l, ∀ acc', f acc x = .ok acc' → g acc x = .ok acc')
    {acc' : σ} (h : l.foldlM f acc = .ok acc') : l.foldlM g acc = .ok acc' := by
  induction l generalizing acc with
  | nil => exact h
  | cons x l ih =>
      rw [List.foldlM_cons] at h ⊢
      refine bind_mono (hfg acc x (by simp)) ?_ h
      intro mid hmid
      exact ih (fun acc y hy => hfg acc y (by simp [hy])) hmid

/-- A loop succeeds when its steps do, and collects what they return. -/
theorem mapM_eq_ok_iff {R : α → γ → Prop}
    (hR : ∀ x ∈ l, ∀ y, f x = .ok y ↔ R x y) :
    l.mapM f = .ok r ↔ List.Forall₂ R l r := by
  induction l generalizing r with
  | nil =>
      rw [List.mapM_nil, List.forall₂_nil_left_iff]
      exact ⟨fun h => (ok.inj h).symm, fun h => h ▸ rfl⟩
  | cons x l ih =>
      have hx := hR x (by simp)
      have hrest := ih (r := r.tail) fun y hy => hR y (by simp [hy])
      rw [List.mapM_cons, List.forall₂_cons_left_iff]
      constructor
      · intro h
        obtain ⟨y, hy, h⟩ := bind_eq_ok_iff.mp h
        obtain ⟨rest, hys, h⟩ := bind_eq_ok_iff.mp h
        have hr : y :: rest = r := ok.inj h
        subst hr
        exact ⟨y, rest, (hx y).mp hy, hrest.mp hys, rfl⟩
      · rintro ⟨y, rest, hy, hys, rfl⟩
        rw [(hx y).mpr hy, hrest.mpr hys]
        rfl

/-- A loop succeeds exactly when each of its steps does. -/
theorem exists_mapM_iff :
    (∃ r, l.mapM f = .ok r) ↔ ∀ a ∈ l, ∃ b, f a = .ok b := by
  constructor
  · rintro ⟨r, hr⟩ a ha
    obtain ⟨b, -, hb⟩ := exists_of_mem_forall₂
      ((mapM_eq_ok_iff fun _ _ _ => Iff.rfl).mp hr) ha
    exact ⟨b, hb⟩
  · intro h
    obtain ⟨r, hr, -⟩ := exists_mapM_ok h
    exact ⟨r, hr⟩

end Except
