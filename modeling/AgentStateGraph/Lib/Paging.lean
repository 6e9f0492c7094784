import Mathlib

/-!
# Pages of a filtered listing

A page is a window of what a filter keeps of an initial part of a listing, and
how long that part is may depend on the page.  Two pages then see different
parts: a page can be short although the listing goes on, and what it left out is
not on the next page either.

The pages hold nothing that the filter rejects and nothing twice.  They hold
everything that it keeps exactly when each item is in the part scanned for the
page that its place falls on.
-/

namespace Paging

variable {α : Type} (order : List α) (keep : α → Bool) (scan : ℕ → ℕ)
  (size : ℕ)

/-- What the filter keeps of an initial part. -/
def seen (n : ℕ) : List α := (order.take n).filter keep

def page (k : ℕ) : List α :=
  ((seen order keep (scan k)).drop (k * size)).take size

/-- The pages before the page `count`, one after the other. -/
def pages (count : ℕ) : List α :=
  (List.range count).flatMap (page order keep scan size)

/-- Page `count` is the first that is empty. -/
def FirstEmpty (count : ℕ) : Prop :=
  page order keep scan size count = [] ∧
    ∀ k < count, page order keep scan size k ≠ []

/-- Each item that is kept is in the part scanned for its page. -/
def Scanned : Prop :=
  ∀ i x, (order.filter keep)[i]? = some x → x ∈ order.take (scan (i / size))

variable {order keep scan size}

/-! ## What an initial part shows -/

variable (order keep) in
theorem seen_isInitial (n : ℕ) : seen order keep n <+: order.filter keep :=
  (List.take_prefix n order).filter keep

variable (order keep) in
theorem seen_eq_take (n : ℕ) :
    seen order keep n =
      (order.filter keep).take (seen order keep n).length :=
  List.prefix_iff_eq_take.mp (seen_isInitial order keep n)

/-- An item shows exactly when its place is below the number of those shown. -/
theorem mem_take_iff_lt (hnodup : order.Nodup) {i n : ℕ} {x : α}
    (h : (order.filter keep)[i]? = some x) :
    x ∈ order.take n ↔ i < (seen order keep n).length := by
  have hkept : keep x = true :=
    (List.mem_filter.mp (List.mem_of_getElem? h)).2
  have hshown : x ∈ order.take n ↔ x ∈ seen order keep n := by
    simp [seen, List.mem_filter, hkept]
  rw [hshown]
  constructor
  · intro hmem
    obtain ⟨j, hj, hsame⟩ := List.mem_iff_getElem.mp hmem
    have hjx : (order.filter keep)[j]? = some x := by
      obtain ⟨rest, hrest⟩ := seen_isInitial order keep n
      rw [← hrest, List.getElem?_append_left hj, List.getElem?_eq_getElem hj,
        hsame]
    have hlt : i < (order.filter keep).length :=
      (List.getElem?_eq_some_iff.mp h).1
    have hij : i = j :=
      (List.getElem?_inj hlt (hnodup.filter keep)).mp (h.trans hjx.symm)
    rw [hij]
    exact hj
  · intro hlt
    rw [seen_eq_take]
    refine List.mem_of_getElem? (i := i) ?_
    rw [List.getElem?_take_of_lt hlt]
    exact h

/-! ## A page -/

variable (order keep scan size) in
/-- A page is an initial part of the window that the whole listing has there. -/
theorem page_eq_take (k : ℕ) :
    page order keep scan size k =
      ((order.filter keep).drop (k * size)).take
        (min size ((seen order keep (scan k)).length - k * size)) := by
  rw [page, seen_eq_take, List.drop_take, List.take_take, ← seen_eq_take]

theorem page_ne_nil_iff (hsize : 0 < size) (k : ℕ) :
    page order keep scan size k ≠ [] ↔
      k * size < (seen order keep (scan k)).length := by
  rw [← List.length_pos_iff]
  simp only [page, List.length_take, List.length_drop]
  omega

/-- An item is on the page that its place falls on, if it shows there, and on
no other. -/
theorem mem_page_iff (hnodup : order.Nodup) (hsize : 0 < size) {i k : ℕ}
    {x : α} (h : (order.filter keep)[i]? = some x) :
    x ∈ page order keep scan size k ↔
      k = i / size ∧ x ∈ order.take (scan k) := by
  rw [mem_take_iff_lt hnodup h]
  have hlt : i < (order.filter keep).length :=
    (List.getElem?_eq_some_iff.mp h).1
  have hplace : k = i / size ↔ k * size ≤ i ∧ i < k * size + size := by
    rw [eq_comm, Nat.div_eq_iff hsize]
    omega
  rw [hplace]
  constructor
  · intro hmem
    rw [page_eq_take] at hmem
    obtain ⟨j, hj, hsame⟩ := List.mem_iff_getElem.mp hmem
    rw [List.length_take] at hj
    rw [List.getElem_take, List.getElem_drop] at hsame
    have hjx : (order.filter keep)[k * size + j]? = some x := by
      rw [List.getElem?_eq_some_iff]
      exact ⟨_, hsame⟩
    have hij : i = k * size + j :=
      (List.getElem?_inj hlt (hnodup.filter keep)).mp (h.trans hjx.symm)
    omega
  · rintro ⟨⟨hfrom, hto⟩, hshown⟩
    rw [page_eq_take]
    refine List.mem_of_getElem? (i := i - k * size) ?_
    rw [List.getElem?_take_of_lt (by omega), List.getElem?_drop,
      Nat.add_sub_cancel' hfrom]
    exact h

/-! ## All pages -/

theorem flatMap_windows (xs : List α) (count : ℕ) :
    (List.range count).flatMap (fun k => (xs.drop (k * size)).take size) =
      xs.take (count * size) := by
  induction count with
  | zero => simp
  | succ count ih =>
      rw [List.range_succ, List.flatMap_append, ih, Nat.succ_mul,
        List.take_add]
      simp

variable (order keep scan size) in
theorem pages_sublist (count : ℕ) :
    (pages order keep scan size count).Sublist (order.filter keep) := by
  have hwindows : (pages order keep scan size count).Sublist
      ((List.range count).flatMap fun k =>
        ((order.filter keep).drop (k * size)).take size) := by
    unfold pages
    induction count with
    | zero => simp
    | succ count ih =>
        rw [List.range_succ, List.flatMap_append, List.flatMap_append]
        refine ih.append ?_
        simp only [List.flatMap_cons, List.flatMap_nil, List.append_nil]
        rw [page_eq_take]
        exact (List.take_prefix_take_left (Nat.min_le_left _ _)).sublist
  rw [flatMap_windows] at hwindows
  exact hwindows.trans (List.take_sublist _ _)

theorem mem_pages_iff {count : ℕ} {x : α} :
    x ∈ pages order keep scan size count ↔
      ∃ k < count, x ∈ page order keep scan size k := by
  simp [pages, List.mem_flatMap]

variable (order keep scan) in
/-- Some page is empty. -/
theorem exists_firstEmpty (hsize : 0 < size) :
    ∃ count, FirstEmpty order keep scan size count := by
  have hempty : ∃ count, page order keep scan size count = [] := by
    refine ⟨order.length, ?_⟩
    by_contra hne
    have hlt := (page_ne_nil_iff hsize order.length).mp hne
    have hle : (seen order keep (scan order.length)).length ≤ order.length :=
      (List.length_filter_le _ _).trans (List.length_take_le' _ _)
    have hmul : order.length ≤ order.length * size :=
      Nat.le_mul_of_pos_right _ hsize
    omega
  classical
  exact ⟨Nat.find hempty, Nat.find_spec hempty,
    fun k hk => Nat.find_min hempty hk⟩

theorem complete_iff (hnodup : order.Nodup) (hsize : 0 < size) {count : ℕ}
    (hcount : FirstEmpty order keep scan size count) :
    (∀ x ∈ order.filter keep, x ∈ pages order keep scan size count) ↔
      Scanned order keep scan size := by
  constructor
  · intro hall i x hx
    obtain ⟨k, -, hmem⟩ :=
      mem_pages_iff.mp (hall x (List.mem_of_getElem? hx))
    obtain ⟨hk, hshown⟩ := (mem_page_iff hnodup hsize hx).mp hmem
    rw [← hk]
    exact hshown
  · intro hscanned x hx
    obtain ⟨i, hi, hget⟩ := List.mem_iff_getElem.mp hx
    have hix : (order.filter keep)[i]? = some x := by
      rw [List.getElem?_eq_getElem hi, hget]
    -- The page of each earlier place holds the item that begins it.
    have hpages : ∀ k ≤ i / size, page order keep scan size k ≠ [] := by
      intro k hk
      have hle : k * size ≤ i := (Nat.le_div_iff_mul_le hsize).mp hk
      have hbegin := List.getElem?_eq_getElem (hle.trans_lt hi)
      have hshown := hscanned _ _ hbegin
      rw [Nat.mul_div_cancel _ hsize] at hshown
      exact (page_ne_nil_iff hsize k).mpr
        ((mem_take_iff_lt hnodup hbegin).mp hshown)
    refine mem_pages_iff.mpr ⟨i / size, ?_, ?_⟩
    · by_contra hle
      exact hpages count (Nat.le_of_not_lt hle) hcount.1
    · exact (mem_page_iff hnodup hsize hix).mpr ⟨rfl, hscanned i x hix⟩

theorem scanned_of_length_le (h : ∀ k, order.length ≤ scan k) :
    Scanned order keep scan size := by
  intro i x hx
  rw [List.take_of_length_le (h _)]
  exact (List.mem_filter.mp (List.mem_of_getElem? hx)).1

end Paging
