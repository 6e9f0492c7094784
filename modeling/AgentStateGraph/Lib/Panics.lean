import AgentStateGraph.Lib.ExceptBind

/-!
# Code that can panic

A call returns a value, returns an error or panics.  The one source of panics
here is a slice of a text by byte offsets: it panics when an offset is not on
the boundary of a character.
-/

/-- How a call fails. -/
inductive Fault (ε : Type) where
  | panics
  | error (e : ε)
deriving DecidableEq

/-- What a call that can panic comes to. -/
abbrev Calls (ε α : Type) := Except (Fault ε) α

namespace Calls

variable {ε α β : Type}

def Panics (x : Calls ε α) : Prop := x = .error .panics

/-- A computation without panics, as a call. -/
def lift : Except ε α → Calls ε α
  | .ok a => .ok a
  | .error e => .error (.error e)

@[simp] theorem not_panics_ok {a : α} :
    ¬ Panics (.ok a : Calls ε α) := by simp [Panics]

@[simp] theorem not_panics_error {e : ε} :
    ¬ Panics (.error (.error e) : Calls ε α) := by simp [Panics]

@[simp] theorem panics_panics :
    Panics (.error .panics : Calls ε α) := rfl

instance : (x : Calls ε α) → Decidable (Panics x)
  | .ok _ => isFalse not_panics_ok
  | .error (.error _) => isFalse not_panics_error
  | .error .panics => isTrue rfl

variable {x : Except ε α} {f : α → Calls ε β}

@[simp] theorem not_panics_lift : ¬ Panics (lift x) := by
  cases x <;> simp [lift]

@[simp] theorem lift_eq_ok_iff {a : α} : lift x = .ok a ↔ x = .ok a := by
  cases x <;> simp [lift]

theorem panics_bind_iff {x : Calls ε α} :
    Panics (x >>= f) ↔ Panics x ∨ ∃ a, x = .ok a ∧ Panics (f a) :=
  Except.bind_eq_error_iff

theorem panics_lift_bind_iff :
    Panics (lift x >>= f) ↔ ∃ a, x = .ok a ∧ Panics (f a) := by
  rw [panics_bind_iff]
  simp

theorem panics_mapM_iff {l : List α} :
    Panics (l.mapM f) ↔ ∃ before x after, l = before ++ x :: after ∧
      (∀ y ∈ before, ∃ b, f y = .ok b) ∧ Panics (f x) := by
  induction l with
  | nil => simp [pure, Except.pure, Panics]
  | cons z l ih =>
      rw [List.mapM_cons, panics_bind_iff]
      constructor
      · rintro (hz | ⟨b, hb, hrest⟩)
        · exact ⟨[], z, l, rfl, by simp, hz⟩
        · have hloop : Panics (l.mapM f) := by
            rcases panics_bind_iff.mp hrest with h | ⟨bs, -, h⟩
            · exact h
            · exact absurd h (by simp [pure, Except.pure])
          obtain ⟨before, x, after, rfl, hbefore, hx⟩ := ih.mp hloop
          refine ⟨z :: before, x, after, rfl, ?_, hx⟩
          intro y hy
          rcases List.mem_cons.mp hy with rfl | hy
          · exact ⟨b, hb⟩
          · exact hbefore y hy
      · rintro ⟨before, x, after, hl, hbefore, hx⟩
        cases before with
        | nil =>
            rw [List.nil_append, List.cons.injEq] at hl
            rw [hl.1]
            exact Or.inl hx
        | cons y before =>
            rw [List.cons_append, List.cons.injEq] at hl
            obtain ⟨rfl, hl⟩ := hl
            obtain ⟨b, hb⟩ := hbefore z (by simp)
            have hloop : Panics (l.mapM f) := ih.mpr ⟨before, x, after, hl,
              fun w hw => hbefore w (by simp [hw]), hx⟩
            exact Or.inr ⟨b, hb, panics_bind_iff.mpr (Or.inl hloop)⟩

/-- Something bad in a list, behind what is all good. -/
def Meets (good bad : α → Prop) (l : List α) : Prop :=
  ∃ before x after, l = before ++ x :: after ∧ (∀ y ∈ before, good y) ∧ bad x

theorem panics_mapM_iff_meets {good bad : α → Prop}
    (hgood : ∀ x, (∃ b, f x = .ok b) ↔ good x)
    (hbad : ∀ x, Panics (f x) ↔ bad x) (l : List α) :
    Panics (l.mapM f) ↔ Meets good bad l := by
  rw [panics_mapM_iff, Meets]
  simp only [hgood, hbad]

theorem returns_mapM_iff {f : α → Except ε β} {good : α → Prop}
    (hgood : ∀ x, (∃ b, f x = .ok b) ↔ good x) (l : List α) :
    (∃ r, l.mapM f = .ok r) ↔ ∀ x ∈ l, good x := by
  constructor
  · rintro ⟨r, hr⟩ x hx
    obtain ⟨b, -, hb⟩ := Except.exists_of_mem_forall₂
      ((Except.mapM_eq_ok_iff fun _ _ _ => Iff.rfl).mp hr) hx
    exact (hgood x).mp ⟨b, hb⟩
  · intro h
    obtain ⟨r, hr, -⟩ := Except.exists_mapM_ok fun x hx =>
      (hgood x).mpr (h x hx)
    exact ⟨r, hr⟩

theorem panics_mapM_range_iff {f : ℕ → Calls ε β} {n : ℕ} :
    Panics ((List.range n).mapM f) ↔
      ∃ k < n, (∀ j < k, ∃ b, f j = .ok b) ∧ Panics (f k) := by
  rw [panics_mapM_iff]
  constructor
  · rintro ⟨before, k, after, hrange, hbefore, hk⟩
    have hlen := congrArg List.length hrange
    rw [List.length_range, List.length_append, List.length_cons] at hlen
    have hget : ∀ i, i ≤ before.length →
        (before ++ k :: after)[i]? = some i := by
      intro i hi
      rw [← hrange]
      exact List.getElem?_range (by omega)
    have hkeq : k = before.length := by
      have h := hget before.length (le_refl _)
      rw [List.getElem?_append_right (le_refl _)] at h
      simpa using h
    refine ⟨k, by omega, fun j hj => ?_, hk⟩
    have h := hget j (by omega)
    rw [List.getElem?_append_left (by omega)] at h
    exact hbefore j (List.mem_of_getElem? h)
  · rintro ⟨k, hkn, hbefore, hk⟩
    refine ⟨List.range k, k, (List.range (n - k - 1)).map (k + 1 + ·), ?_, ?_,
      hk⟩
    · have hn : n = k + 1 + (n - k - 1) := by omega
      conv_lhs => rw [hn, List.range_add, List.range_succ]
      rw [List.append_assoc]
      rfl
    · intro j hj
      exact hbefore j (List.mem_range.mp hj)

/-! ## A call and its computation without panics -/

/-- The call does what the computation does unless it panics. -/
def Follows (x : Calls ε α) (y : Except ε α) : Prop := Panics x ∨ x = lift y

theorem follows_lift (y : Except ε α) : Follows (lift y) y := Or.inr rfl

theorem follows_ok (a : α) : Follows (.ok a : Calls ε α) (.ok a) := Or.inr rfl

theorem follows_error (e : ε) :
    Follows (.error (.error e) : Calls ε α) (.error e) := Or.inr rfl

theorem Follows.bind {x : Calls ε α} {y : Except ε α} {g : α → Except ε β}
    (hxy : Follows x y) (hfg : ∀ a, Follows (f a) (g a)) :
    Follows (x >>= f) (y >>= g) := by
  rcases hxy with hx | rfl
  · exact Or.inl (panics_bind_iff.mpr (Or.inl hx))
  · cases y with
    | error e => exact Or.inr rfl
    | ok a => exact hfg a

theorem Follows.mapM {g : α → Except ε β} (hfg : ∀ a, Follows (f a) (g a))
    (l : List α) : Follows (l.mapM f) (l.mapM g) := by
  induction l with
  | nil => exact follows_ok []
  | cons a l ih =>
      rw [List.mapM_cons, List.mapM_cons]
      exact (hfg a).bind fun b => ih.bind fun bs => follows_ok (b :: bs)

end Calls

/-! ## Texts by byte offsets -/

namespace TextBytes

/-- The length in bytes. -/
def byteLength (cs : List Char) : ℕ := (cs.map Char.utf8Size).sum

@[simp] theorem byteLength_nil : byteLength [] = 0 := rfl

@[simp] theorem byteLength_cons (c : Char) (cs : List Char) :
    byteLength (c :: cs) = c.utf8Size + byteLength cs := by
  simp [byteLength]

@[simp] theorem byteLength_append (cs ds : List Char) :
    byteLength (cs ++ ds) = byteLength cs + byteLength ds := by
  simp [byteLength]

theorem byteLength_toList (s : String) :
    byteLength s.toList = s.utf8ByteSize := by
  have h : ∀ cs : List Char, (String.ofList cs).utf8ByteSize =
      byteLength cs := by
    intro cs
    induction cs with
    | nil => rfl
    | cons c cs ih =>
        rw [String.ofList_cons, String.utf8ByteSize_append,
          String.utf8ByteSize_singleton, ih, byteLength_cons]
  rw [← h, String.ofList_toList]

theorem length_le_byteLength (cs : List Char) : cs.length ≤ byteLength cs := by
  induction cs with
  | nil => exact le_refl _
  | cons c cs ih =>
      have hc := c.utf8Size_pos
      rw [List.length_cons, byteLength_cons]
      omega

/-- The characters of the first `n` bytes and the others, if a character ends
there. -/
def splitBytes : ℕ → List Char → Option (List Char × List Char)
  | 0, cs => some ([], cs)
  | _ + 1, [] => none
  | n + 1, c :: cs =>
      if c.utf8Size ≤ n + 1 then
        (splitBytes (n + 1 - c.utf8Size) cs).map fun s => (c :: s.1, s.2)
      else none

/-- `&text[i..j]`, which panics off a boundary. -/
def slice (text : List Char) (i j : ℕ) : Option (List Char) := do
  let tail ← splitBytes i text
  let piece ← splitBytes (j - i) tail.2
  some piece.1

theorem splitBytes_eq_some_iff {n : ℕ} {cs a b : List Char} :
    splitBytes n cs = some (a, b) ↔ cs = a ++ b ∧ byteLength a = n := by
  induction cs generalizing n a with
  | nil =>
      cases n with
      | zero =>
          constructor
          · intro h
            cases h
            exact ⟨rfl, rfl⟩
          · rintro ⟨h, -⟩
            obtain ⟨rfl, rfl⟩ := List.append_eq_nil_iff.mp h.symm
            rfl
      | succ n =>
          constructor
          · intro h
            cases h
          · rintro ⟨h, hn⟩
            obtain ⟨rfl, rfl⟩ := List.append_eq_nil_iff.mp h.symm
            cases hn
  | cons c cs ih =>
      have hc := c.utf8Size_pos
      cases n with
      | zero =>
          constructor
          · intro h
            cases h
            exact ⟨rfl, rfl⟩
          · rintro ⟨h, hn⟩
            have hlen := length_le_byteLength a
            obtain rfl : a = [] := List.eq_nil_of_length_eq_zero (by omega)
            rw [h, splitBytes, List.nil_append]
      | succ n =>
          rw [splitBytes]
          constructor
          · intro h
            split at h
            next hle =>
              obtain ⟨⟨a', b'⟩, hs, heq⟩ := Option.map_eq_some_iff.mp h
              cases heq
              obtain ⟨rfl, hn⟩ := ih.mp hs
              refine ⟨rfl, ?_⟩
              rw [byteLength_cons, hn]
              omega
            next => contradiction
          · rintro ⟨h, hn⟩
            cases a with
            | nil => cases hn
            | cons c' a =>
                obtain ⟨rfl, rfl⟩ := List.cons.inj h
                rw [byteLength_cons] at hn
                rw [if_pos (by omega),
                  ih.mpr ⟨rfl, show byteLength a = n + 1 - c.utf8Size by omega⟩]
                rfl

/-- A text has no character boundary at an offset when it is too short or a
character stands across the offset. -/
theorem splitBytes_eq_none_iff {n : ℕ} {cs : List Char} :
    splitBytes n cs = none ↔ byteLength cs < n ∨
      ∃ a c b, cs = a ++ c :: b ∧ byteLength a < n ∧
        n < byteLength a + c.utf8Size := by
  induction cs generalizing n with
  | nil => cases n <;> simp [splitBytes]
  | cons c cs ih =>
      have hc := c.utf8Size_pos
      cases n with
      | zero => simp [splitBytes]
      | succ n =>
          rw [splitBytes, byteLength_cons]
          split
          next hle =>
            rw [Option.map_eq_none_iff, ih]
            constructor
            · rintro (h | ⟨a, d, b, rfl, hlt, hgt⟩)
              · exact Or.inl (by omega)
              · refine Or.inr ⟨c :: a, d, b, rfl, ?_, ?_⟩
                · rw [byteLength_cons]
                  omega
                · rw [byteLength_cons]
                  omega
            · rintro (h | ⟨a, d, b, hcs, hlt, hgt⟩)
              · exact Or.inl (by omega)
              · cases a with
                | nil =>
                    obtain ⟨rfl, rfl⟩ := List.cons.inj hcs
                    rw [byteLength_nil] at hgt
                    omega
                | cons c' a =>
                    obtain ⟨rfl, rfl⟩ := List.cons.inj hcs
                    rw [byteLength_cons] at hlt hgt
                    exact Or.inr ⟨a, d, b, rfl, by omega, by omega⟩
          next hle =>
            constructor
            · intro _
              refine Or.inr ⟨[], c, cs, rfl, ?_, ?_⟩
              · rw [byteLength_nil]
                omega
              · rw [byteLength_nil]
                omega
            · intro _
              rfl

theorem slice_append {a rest : List Char} (n : ℕ) :
    slice (a ++ rest) (byteLength a) (byteLength a + n) =
      (splitBytes n rest).map Prod.fst := by
  have hsplit : splitBytes (byteLength a) (a ++ rest) = some (a, rest) :=
    splitBytes_eq_some_iff.mpr ⟨rfl, rfl⟩
  rw [slice, hsplit, Option.bind_eq_bind, Option.bind_some,
    Nat.add_sub_cancel_left]
  cases splitBytes n rest <;> rfl

end TextBytes
