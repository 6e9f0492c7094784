import Mathlib

/-!
# Self-delimiting texts

A text is self-delimiting when it can be told where it ends in any longer text
that goes on with a stop.  Texts that are joined by a separator are then told
apart one by one.
-/

namespace AgentStateGraph.Delimited

variable {α β γ : Type}

/-- The text has ended, or goes on with a stop. -/
def Stops (stops : List β) : List β → Prop
  | [] => True
  | b :: _ => b ∈ stops

/-- What was written first is known, up to `same`, and so is the rest. -/
def Recovers (stops : List β) (write : α → List β) (among : α → Prop)
    (same : α → α → Prop) (a : α) : Prop :=
  ∀ b, among b → ∀ rest rest', Stops stops rest → Stops stops rest' →
    write a ++ rest = write b ++ rest' → same a b ∧ rest = rest'

/-! ## Words -/

theorem word_recovered {stops x y rest rest' : List β}
    (hx : ∀ b ∈ x, b ∉ stops) (hy : ∀ b ∈ y, b ∉ stops)
    (hrest : Stops stops rest) (hrest' : Stops stops rest')
    (h : x ++ rest = y ++ rest') : x = y ∧ rest = rest' := by
  induction x generalizing y with
  | nil =>
      cases y with
      | nil => exact ⟨rfl, h⟩
      | cons b y =>
          rw [List.nil_append] at h
          rw [h] at hrest
          exact absurd hrest (hy b (by simp))
  | cons a x ih =>
      cases y with
      | nil =>
          rw [List.nil_append] at h
          rw [← h] at hrest'
          exact absurd hrest' (hx a (by simp))
      | cons b y =>
          rw [List.cons_append, List.cons_append, List.cons.injEq] at h
          obtain ⟨rfl, h⟩ := h
          obtain ⟨rfl, hrest⟩ := ih (fun c hc => hx c (by simp [hc]))
            (fun c hc => hy c (by simp [hc])) h
          exact ⟨rfl, hrest⟩

theorem units_recovered {code : γ → List β} {close : β}
    (hcode : ∀ a b rest rest', code a ++ rest = code b ++ rest' →
      a = b ∧ rest = rest')
    (hclose : ∀ a rest rest', code a ++ rest ≠ close :: rest')
    {xs ys : List γ} {rest rest' : List β}
    (h : xs.flatMap code ++ close :: rest = ys.flatMap code ++ close :: rest') :
    xs = ys ∧ rest = rest' := by
  induction xs generalizing ys with
  | nil =>
      cases ys with
      | nil => exact ⟨rfl, by simpa using h⟩
      | cons y ys =>
          rw [List.flatMap_cons, List.append_assoc] at h
          exact absurd h.symm (hclose y _ _)
  | cons x xs ih =>
      rw [List.flatMap_cons, List.append_assoc] at h
      cases ys with
      | nil => exact absurd h (hclose x _ _)
      | cons y ys =>
          rw [List.flatMap_cons, List.append_assoc] at h
          obtain ⟨rfl, htail⟩ := hcode x y _ _ h
          obtain ⟨rfl, hrest⟩ := ih htail
          exact ⟨rfl, hrest⟩

/-! ## Joined texts -/

theorem exists_of_forall₂ {R : α → γ → Prop} {xs : List α} {ys : List γ}
    (h : List.Forall₂ R xs ys) {x : α} (hx : x ∈ xs) : ∃ y ∈ ys, R x y := by
  induction h with
  | nil => simp at hx
  | cons hab _ ih =>
      rcases List.mem_cons.mp hx with rfl | hx
      · exact ⟨_, by simp, hab⟩
      · obtain ⟨y, hy, hxy⟩ := ih hx
        exact ⟨y, by simp [hy], hxy⟩

/-- The texts, with the separator between them. -/
def joined (separator : β) : List (List β) → List β
  | [] => []
  | [item] => item
  | item :: items => item ++ separator :: joined separator items

theorem joined_cons (separator : β) (item : List β) (items : List (List β)) :
    joined separator (item :: items) =
      item ++ items.flatMap (separator :: ·) := by
  induction items generalizing item with
  | nil => simp [joined]
  | cons next items ih =>
      rw [joined, ih, List.flatMap_cons, List.cons_append]
      simp

variable {stops : List β} {separator close : β} {write : α → List β}
  {among : α → Prop} {same : α → α → Prop}

theorem stops_tail (hseparator : separator ∈ stops) (hclose : close ∈ stops)
    (items : List (List β)) (rest : List β) :
    Stops stops (items.flatMap (separator :: ·) ++ close :: rest) := by
  cases items with
  | nil => exact hclose
  | cons item items => exact hseparator

/-- What follows the first of some joined texts. -/
theorem tail_recovered (hseparator : separator ∈ stops) (hclose : close ∈ stops)
    (hne : separator ≠ close) {xs ys : List α} {rest rest' : List β}
    (hxs : ∀ x ∈ xs, Recovers stops write among same x)
    (hys : ∀ y ∈ ys, among y)
    (h : (xs.map write).flatMap (separator :: ·) ++ close :: rest =
      (ys.map write).flatMap (separator :: ·) ++ close :: rest') :
    List.Forall₂ same xs ys ∧ rest = rest' := by
  induction xs generalizing ys with
  | nil =>
      cases ys with
      | nil => exact ⟨.nil, by simpa using h⟩
      | cons y ys => simp [hne.symm] at h
  | cons x xs ih =>
      cases ys with
      | nil => simp [hne] at h
      | cons y ys =>
          simp only [List.map_cons, List.flatMap_cons, List.cons_append,
            List.append_assoc, List.cons.injEq, true_and] at h
          rw [List.forall_mem_cons] at hxs hys
          obtain ⟨hsame, htail⟩ := hxs.1 y hys.1 _ _
            (stops_tail hseparator hclose _ _)
            (stops_tail hseparator hclose _ _) h
          obtain ⟨hall, hrest⟩ := ih hxs.2 hys.2 htail
          exact ⟨.cons hsame hall, hrest⟩

theorem joined_recovered (hseparator : separator ∈ stops)
    (hclose : close ∈ stops) (hne : separator ≠ close) {xs ys : List α}
    {rest rest' : List β}
    (hxs : ∀ x ∈ xs, Recovers stops write among same x)
    (hys : ∀ y ∈ ys, among y)
    (hopenx : ∀ x ∈ xs, ∀ r r', write x ++ r ≠ close :: r')
    (hopeny : ∀ y ∈ ys, ∀ r r', write y ++ r ≠ close :: r')
    (h : joined separator (xs.map write) ++ close :: rest =
      joined separator (ys.map write) ++ close :: rest') :
    List.Forall₂ same xs ys ∧ rest = rest' := by
  cases xs with
  | nil =>
      cases ys with
      | nil => exact ⟨.nil, by simpa [joined] using h⟩
      | cons y ys =>
          rw [List.map_cons, joined_cons, List.append_assoc] at h
          exact absurd h.symm (hopeny y (by simp) _ _)
  | cons x xs =>
      rw [List.map_cons, joined_cons, List.append_assoc] at h
      cases ys with
      | nil => exact absurd h (hopenx x (by simp) _ _)
      | cons y ys =>
          rw [List.map_cons, joined_cons, List.append_assoc] at h
          rw [List.forall_mem_cons] at hxs hys
          obtain ⟨hsame, htail⟩ := hxs.1 y hys.1 _ _
            (stops_tail hseparator hclose _ _)
            (stops_tail hseparator hclose _ _) h
          obtain ⟨hall, hrest⟩ :=
            tail_recovered hseparator hclose hne hxs.2 hys.2 htail
          exact ⟨.cons hsame hall, hrest⟩

end AgentStateGraph.Delimited
