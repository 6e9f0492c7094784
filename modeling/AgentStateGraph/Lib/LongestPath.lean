import AgentStateGraph.Lib.Worklist

/-!
# Longest paths to a root

A graph given by the successors of its vertices.  A root is a vertex without
successors, and the generation of a vertex is the length of its longest path
to a root: one more than the greatest generation among its successors.
-/

namespace LongestPath

open Worklist

variable {α : Type}

/-- A path of `n` edges. -/
def Path (next : α → List α) : ℕ → α → α → Prop
  | 0, x, y => x = y
  | n + 1, x, y => ∃ z ∈ next x, Path next n z y

/-- The lengths of the paths from a vertex to the roots. -/
def rootLengths (next : α → List α) (x : α) : Set ℕ :=
  {n | ∃ r, next r = [] ∧ Path next n x r}

/-- `g` is the length of the longest path from `x` to a root. -/
def IsGeneration (next : α → List α) (x : α) (g : ℕ) : Prop :=
  IsGreatest (rootLengths next x) g

variable {next : α → List α} {x y z : α} {m n g g' : ℕ}

/-! ## Paths -/

theorem Path.append (hxy : Path next m x y) (hyz : Path next n y z) :
    Path next (m + n) x z := by
  induction m generalizing x with
  | zero =>
      obtain rfl : x = y := hxy
      rwa [Nat.zero_add]
  | succ m ih =>
      obtain ⟨w, hw, hrest⟩ := hxy
      rw [Nat.succ_add]
      exact ⟨w, hw, ih hrest⟩

theorem Path.reaches (h : Path next n x y) : Reaches next x y := by
  induction n generalizing x with
  | zero =>
      obtain rfl : x = y := h
      exact Reaches.refl next x
  | succ n ih =>
      obtain ⟨w, hw, hrest⟩ := h
      exact (Reaches.single hw).trans (ih hrest)

theorem exists_path_of_reaches (h : Reaches next x y) :
    ∃ n, Path next n x y := by
  induction h with
  | refl => exact ⟨0, rfl⟩
  | tail _ hstep ih =>
      obtain ⟨n, hn⟩ := ih
      exact ⟨n + 1, hn.append ⟨_, hstep, rfl⟩⟩

/-- Two graphs that agree on a set none of their edges leaves have the same
paths from it. -/
theorem Path.congr {next' : α → List α} {P : α → Prop}
    (heq : ∀ x, P x → next' x = next x)
    (hclosed : ∀ x, P x → ∀ y ∈ next x, P y) (hx : P x)
    (h : Path next n x y) : Path next' n x y ∧ P y := by
  induction n generalizing x with
  | zero =>
      obtain rfl : x = y := h
      exact ⟨rfl, hx⟩
  | succ n ih =>
      obtain ⟨w, hw, hrest⟩ := h
      obtain ⟨hpath, hy⟩ := ih (hclosed x hx w hw) hrest
      exact ⟨⟨w, by rwa [heq x hx], hpath⟩, hy⟩

theorem rootLengths_congr {next' : α → List α} {P : α → Prop}
    (heq : ∀ x, P x → next' x = next x)
    (hclosed : ∀ x, P x → ∀ y ∈ next x, P y) (hx : P x) :
    rootLengths next' x = rootLengths next x := by
  have hclosed' : ∀ x, P x → ∀ y ∈ next' x, P y := by
    intro x hx y hy
    rw [heq x hx] at hy
    exact hclosed x hx y hy
  ext n
  constructor
  · rintro ⟨r, hroot, hpath⟩
    obtain ⟨hpath, hr⟩ := hpath.congr (fun x hx => (heq x hx).symm) hclosed' hx
    exact ⟨r, by rwa [← heq r hr], hpath⟩
  · rintro ⟨r, hroot, hpath⟩
    obtain ⟨hpath, hr⟩ := hpath.congr heq hclosed hx
    exact ⟨r, by rwa [heq r hr], hpath⟩

/-! ## Generations -/

/-- One more than the greatest generation recorded for a successor. -/
def nextGeneration (generation : α → Option ℕ) (successors : List α) : ℕ :=
  ((successors.filterMap generation).map (· + 1)).max?.getD 0

theorem isGeneration_nextGeneration {generation : α → Option ℕ}
    (h : ∀ p ∈ next x, ∃ g, generation p = some g ∧ IsGeneration next p g) :
    IsGeneration next x (nextGeneration generation (next x)) := by
  cases hnext : next x with
  | nil =>
      refine ⟨⟨x, hnext, rfl⟩, ?_⟩
      rintro n ⟨r, -, hpath⟩
      cases n with
      | zero => exact Nat.zero_le _
      | succ n =>
          obtain ⟨w, hw, -⟩ := hpath
          simp [hnext] at hw
  | cons p ps =>
      rw [← hnext]
      have hdeep : ∀ q ∈ next x, ∀ g, generation q = some g →
          g + 1 ∈ ((next x).filterMap generation).map (· + 1) := fun q hq g hg =>
        List.mem_map.mpr ⟨g, List.mem_filterMap.mpr ⟨q, hq, hg⟩, rfl⟩
      obtain ⟨top, htop⟩ : ∃ top,
          (((next x).filterMap generation).map (· + 1)).max? = some top := by
        obtain ⟨g, hg, -⟩ := h p (by simp [hnext])
        have hmem := hdeep p (by simp [hnext]) g hg
        cases hmax : (((next x).filterMap generation).map (· + 1)).max? with
        | some top => exact ⟨top, rfl⟩
        | none => simp [List.max?_eq_none_iff.mp hmax] at hmem
      obtain ⟨hmem, hle⟩ := List.max?_eq_some_iff.mp htop
      rw [nextGeneration, htop, Option.getD_some]
      constructor
      · obtain ⟨g, hg, rfl⟩ := List.mem_map.mp hmem
        obtain ⟨q, hq, hgq⟩ := List.mem_filterMap.mp hg
        obtain ⟨g', hg', hlongest⟩ := h q hq
        obtain rfl : g = g' := by simpa [hgq] using hg'
        obtain ⟨r, hroot, hpath⟩ := hlongest.1
        exact ⟨r, hroot, q, hq, hpath⟩
      · rintro n ⟨r, hroot, hpath⟩
        cases n with
        | zero => exact Nat.zero_le _
        | succ n =>
            obtain ⟨q, hq, hpath⟩ := hpath
            obtain ⟨g, hg, hlongest⟩ := h q hq
            have hn := hlongest.2 ⟨r, hroot, hpath⟩
            have hg := hle _ (hdeep q hq g hg)
            omega

theorem IsGeneration.lt_of_reaches (hx : IsGeneration next x g)
    (hy : IsGeneration next y g') (h : Reaches next x y) (hne : x ≠ y) :
    g' < g := by
  obtain ⟨n, hpath⟩ := exists_path_of_reaches h
  obtain ⟨r, hroot, hrest⟩ := hy.1
  have hle := hx.2 ⟨r, hroot, hpath.append hrest⟩
  cases n with
  | zero => exact absurd hpath hne
  | succ n => omega

end LongestPath
