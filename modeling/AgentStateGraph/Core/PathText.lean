import AgentStateGraph.Core.Path

/-!
# Paths as texts

The walks over a tree spell a place by writing its keys and positions after
slashes.  The text parses back to the place exactly when each component is
spelled by one segment that reads as it, and the place is not too deep.
-/

namespace AgentStateGraph

/-! ## Numbers -/

theorem slash_notMem_digits (n : ℕ) : '/' ∉ Nat.toDigits 10 n := by
  intro hmem
  have hdigit := Nat.isDigit_of_mem_toDigits (by norm_num) (by norm_num) hmem
  exact absurd hdigit (by decide)

theorem repr_injective : Function.Injective Nat.repr := by
  intro m n h
  have hdigits := congrArg String.toList h
  rw [Nat.toList_repr, Nat.toList_repr] at hdigits
  have hvalue := congrArg (fun l => Nat.ofDigitChars 10 l 0) hdigits
  simpa [Nat.ofDigitChars_ten_toDigits] using hvalue

/-- Digits alone read as the number they spell, if it fits a `usize`. -/
theorem parseUsize_digits {l : List Char} (hne : l ≠ [])
    (hdigits : ∀ c ∈ l, c.isDigit = true) :
    parseUsize l = if Nat.ofDigitChars 10 l 0 < 2 ^ 64 then
      some (Nat.ofDigitChars 10 l 0) else none := by
  have hall : l.all Char.isDigit = true := List.all_eq_true.mpr hdigits
  have hfold : l.foldl (fun n c => 10 * n + (c.toNat - 48)) 0 =
      Nat.ofDigitChars 10 l 0 := rfl
  unfold parseUsize
  split
  next rest =>
    exact absurd (hdigits '+' List.mem_cons_self) (by decide)
  next =>
    rw [if_neg (by simp [hne, hall]), hfold]

theorem parseUsize_repr (n : ℕ) :
    parseUsize (Nat.repr n).toList = if n < 2 ^ 64 then some n else none := by
  rw [Nat.toList_repr, parseUsize_digits
    (List.ne_nil_of_length_pos Nat.length_toDigits_pos)
    (fun c hc => Nat.isDigit_of_mem_toDigits (by norm_num) (by norm_num) hc),
    Nat.ofDigitChars_ten_toDigits]

theorem utf8ByteSize_le (l : List Char) :
    (String.ofList l).utf8ByteSize ≤ 4 * l.length := by
  induction l with
  | nil => simp
  | cons c l ih =>
      have hc := c.utf8Size_le_four
      rw [String.ofList_cons, String.utf8ByteSize_append,
        String.utf8ByteSize_singleton, List.length_cons]
      omega

/-! ## The text of a place -/

/-- A component as the walks spell it. -/
def PathComponent.label : PathComponent → String
  | .key k => k
  | .index i => Nat.repr i

/-- The text of a place below a path. -/
def placeText (path : String) : List PathComponent → String
  | [] => path
  | c :: rest => placeText (path ++ "/" ++ c.label) rest

/-- One segment spells the component, and reads as it. -/
def PathComponent.isReadable : PathComponent → Bool
  | .key k =>
      k ≠ "" && '/' ∉ k.toList && k.utf8ByteSize ≤ MAX_SEGMENT_LEN &&
        (parseUsize k.toList).isNone
  | .index i => i < 2 ^ 64

theorem splitOn_slash_eq_singleton_iff {l : List Char} :
    l.splitOn '/' = [l] ↔ '/' ∉ l := by
  constructor
  · intro h hmem
    obtain ⟨u, v, rfl⟩ := List.append_of_mem hmem
    have hlen := congrArg List.length h
    rw [List.splitOn_append_cons_self, List.length_append,
      List.length_singleton] at hlen
    have hu := List.length_pos_of_ne_nil (List.splitOn_ne_nil '/' u)
    have hv := List.length_pos_of_ne_nil (List.splitOn_ne_nil '/' v)
    omega
  · exact List.splitOn_eq_singleton

/-- A segment passes the checks of `parseSegments`. -/
def SegmentOk (segment : List Char) : Prop :=
  segment ≠ [] ∧ (String.ofList segment).utf8ByteSize ≤ MAX_SEGMENT_LEN

theorem PathComponent.isReadable_iff (c : PathComponent) :
    c.isReadable = true ↔ '/' ∉ c.label.toList ∧
      SegmentOk c.label.toList ∧
      PathComponent.ofSegment c.label.toList = c := by
  match c with
  | .key k =>
      simp only [isReadable, label, SegmentOk, String.ofList_toList, ofSegment,
        Bool.and_eq_true, decide_eq_true_eq, ne_eq, String.toList_eq_nil_iff,
        Option.isNone_iff_eq_none]
      cases h : parseUsize k.toList with
      | none => simp; tauto
      | some n => simp
  | .index i =>
      have hslash : '/' ∉ (Nat.repr i).toList := by
        rw [Nat.toList_repr]
        exact slash_notMem_digits i
      simp only [isReadable, label, SegmentOk, ofSegment, parseUsize_repr,
        decide_eq_true_eq]
      by_cases hi : i < 2 ^ 64
      · have hlen : (Nat.repr i).toList.length ≤ 20 := by
          rw [Nat.toList_repr]
          exact Nat.toDigits_length 10 i 20 (by norm_num) (by omega)
        have hsize := utf8ByteSize_le (Nat.repr i).toList
        have hne : (Nat.repr i).toList ≠ [] := by
          rw [Nat.toList_repr]
          exact List.ne_nil_of_length_pos Nat.length_toDigits_pos
        refine iff_of_true hi ⟨hslash, ⟨hne, hsize.trans ?_⟩, ?_⟩
        · rw [MAX_SEGMENT_LEN]
          omega
        · rw [if_pos hi]
      · refine iff_of_false hi ?_
        rintro ⟨-, -, h⟩
        rw [if_neg hi] at h
        contradiction

/-! ## Reading a text -/

theorem parseSegments_eq_ok_iff {i : ℕ} {segs : List (List Char)}
    {components : List PathComponent} :
    StatePath.parseSegments i segs = .ok components ↔
      (∀ segment ∈ segs, SegmentOk segment) ∧
        components = segs.map PathComponent.ofSegment := by
  induction segs generalizing i components with
  | nil => simp [StatePath.parseSegments, eq_comm]
  | cons segment rest ih =>
      rw [StatePath.parseSegments]
      simp only [List.forall_mem_cons, List.map_cons]
      by_cases hempty : segment.isEmpty = true
      · rw [if_pos hempty]
        refine iff_of_false (fun h => by cases h) ?_
        rintro ⟨⟨⟨hne, -⟩, -⟩, -⟩
        exact hne (List.isEmpty_iff.mp hempty)
      · rw [if_neg hempty]
        by_cases hlong :
            MAX_SEGMENT_LEN < (String.ofList segment).utf8ByteSize
        · rw [if_pos hlong]
          refine iff_of_false (fun h => by cases h) ?_
          rintro ⟨⟨⟨-, hle⟩, -⟩, -⟩
          omega
        · rw [if_neg hlong]
          have hok : SegmentOk segment :=
            ⟨fun h => hempty (List.isEmpty_iff.mpr h), Nat.le_of_not_lt hlong⟩
          cases hrest : StatePath.parseSegments (i + 1) rest with
          | error e =>
              refine iff_of_false (fun h => by cases h) ?_
              rintro ⟨⟨-, hall⟩, -⟩
              have hcan := (ih (i := i + 1)).mpr ⟨hall, rfl⟩
              rw [hrest] at hcan
              contradiction
          | ok tail =>
              obtain ⟨hall, rfl⟩ := ih.mp hrest
              simp only [Except.ok.injEq]
              constructor
              · rintro rfl
                exact ⟨⟨hok, hall⟩, rfl⟩
              · rintro ⟨-, rfl⟩
                rfl

/-- What a text with a slash first and something after it reads as. -/
theorem parse_eq_ok_iff {s : String} {tail : List Char} {p : StatePath}
    (hs : s.toList = '/' :: tail) (hne : tail ≠ []) :
    StatePath.parse s = .ok p ↔
      (∀ segment ∈ tail.splitOn '/', SegmentOk segment) ∧
        p.components = (tail.splitOn '/').map PathComponent.ofSegment ∧
        p.components.length ≤ MAX_PATH_DEPTH := by
  have hroot : ¬(s = "" ∨ s = "/") := by
    rintro (rfl | rfl)
    · simp at hs
    · exact hne (by simpa using hs.symm)
  have hstart : startsWith s "/" = true := by
    rw [startsWith_iff, hs]
    exact ⟨tail, rfl⟩
  have hsegs : StatePath.segments s = tail.splitOn '/' := by
    rw [StatePath.segments, hs]
    rfl
  rw [StatePath.parse, if_neg hroot, if_pos hstart, hsegs]
  cases hparse : StatePath.parseSegments 0 (tail.splitOn '/') with
  | error e =>
      refine iff_of_false (fun h => by cases h) ?_
      rintro ⟨hall, -, -⟩
      have hcan := (parseSegments_eq_ok_iff (i := 0)).mpr ⟨hall, rfl⟩
      rw [hparse] at hcan
      contradiction
  | ok components =>
      obtain ⟨hall, rfl⟩ := parseSegments_eq_ok_iff.mp hparse
      dsimp only
      by_cases hdeep : MAX_PATH_DEPTH <
          ((tail.splitOn '/').map PathComponent.ofSegment).length
      · rw [if_pos hdeep]
        refine iff_of_false (fun h => by cases h) ?_
        rintro ⟨-, hcomp, hle⟩
        rw [hcomp] at hle
        omega
      · rw [if_neg hdeep]
        constructor
        · rintro ⟨⟩
          exact ⟨hall, rfl, Nat.le_of_not_lt hdeep⟩
        · rintro ⟨-, hcomp, -⟩
          cases p
          rw [← hcomp]

theorem toList_placeText (path : String) (place : List PathComponent) :
    (placeText path place).toList =
      path.toList ++ place.flatMap fun c => '/' :: c.label.toList := by
  induction place generalizing path with
  | nil => simp [placeText]
  | cons c rest ih =>
      rw [placeText, ih]
      simp

theorem splitOn_append_labels (u : List Char) (place : List PathComponent) :
    (u ++ place.flatMap fun c => '/' :: c.label.toList).splitOn '/' =
      u.splitOn '/' ++ place.flatMap fun c => c.label.toList.splitOn '/' := by
  induction place generalizing u with
  | nil => simp
  | cons c rest ih =>
      rw [List.flatMap_cons, List.flatMap_cons, List.cons_append,
        List.splitOn_append_cons_self, ih]

/-- Parts that are not empty and give as many values as there are parts give
one each. -/
theorem eq_singleton_of_map_flatMap {α β : Type} {f : α → List β} {g : β → α}
    (hf : ∀ c, f c ≠ []) {l : List α} (h : (l.flatMap f).map g = l) :
    ∀ c ∈ l, ∃ x, f c = [x] ∧ g x = c := by
  have hlen : ∀ l : List α, l.length ≤ (l.flatMap f).length := by
    intro l
    induction l with
    | nil => exact Nat.zero_le _
    | cons c l ih =>
        have hpos := List.length_pos_of_ne_nil (hf c)
        rw [List.flatMap_cons, List.length_append, List.length_cons]
        omega
  induction l with
  | nil => simp
  | cons c l ih =>
      obtain ⟨x, xs, hx⟩ := List.exists_cons_of_ne_nil (hf c)
      rw [List.flatMap_cons, hx, List.cons_append, List.map_cons,
        List.cons.injEq, List.map_append] at h
      obtain ⟨hhead, htail⟩ := h
      have hxs : xs = [] := by
        have hcount := congrArg List.length htail
        have hle := hlen l
        rw [List.length_append, List.length_map, List.length_map] at hcount
        exact List.length_eq_zero_iff.mp (by omega)
      subst hxs
      intro d hd
      rcases List.mem_cons.mp hd with rfl | hd
      · exact ⟨x, hx, hhead⟩
      · exact ih (by simpa using htail) d hd

theorem parse_append_iff {s : String} {tail : List Char}
    (hs : s.toList = '/' :: tail) (hne : tail ≠ []) {base : List (List Char)}
    {place : List PathComponent}
    (hsplit : tail.splitOn '/' =
      base ++ place.flatMap fun c => c.label.toList.splitOn '/')
    (hbase : ∀ segment ∈ base, SegmentOk segment) :
    StatePath.parse s = .ok ⟨base.map PathComponent.ofSegment ++ place⟩ ↔
      (base.map PathComponent.ofSegment ++ place).length ≤ MAX_PATH_DEPTH ∧
        ∀ c ∈ place, c.isReadable = true := by
  rw [parse_eq_ok_iff hs hne, hsplit]
  dsimp only
  rw [List.map_append, List.append_cancel_left_eq]
  constructor
  · rintro ⟨hall, hcomp, hdepth⟩
    refine ⟨hdepth, fun c hc => ?_⟩
    obtain ⟨x, hx, hread⟩ := eq_singleton_of_map_flatMap
      (f := fun c : PathComponent => c.label.toList.splitOn '/')
      (g := PathComponent.ofSegment) (fun c => List.splitOn_ne_nil _ _)
      hcomp.symm c hc
    have hlabel : x = c.label.toList := by
      have hjoin : ['/'].intercalate (c.label.toList.splitOn '/') =
          c.label.toList := List.intercalate_splitOn '/'
      rw [hx] at hjoin
      simpa using hjoin
    rw [hlabel] at hx hread
    refine c.isReadable_iff.mpr
      ⟨splitOn_slash_eq_singleton_iff.mp hx, hall _ ?_, hread⟩
    refine List.mem_append_right _ (List.mem_flatMap.mpr ⟨c, hc, ?_⟩)
    rw [hx]
    exact List.mem_singleton_self _
  · rintro ⟨hdepth, hplace⟩
    have hflat : (place.flatMap fun c => c.label.toList.splitOn '/') =
        place.map fun c => c.label.toList := by
      rw [← List.flatMap_pure_eq_map]
      refine List.flatMap_congr fun c hc => ?_
      exact splitOn_slash_eq_singleton_iff.mpr (c.isReadable_iff.mp
        (hplace c hc)).1
    rw [hflat]
    refine ⟨?_, ?_, hdepth⟩
    · intro segment hsegment
      rcases List.mem_append.mp hsegment with hmem | hmem
      · exact hbase segment hmem
      · obtain ⟨c, hc, rfl⟩ := List.mem_map.mp hmem
        exact (c.isReadable_iff.mp (hplace c hc)).2.1
    · rw [List.map_map]
      symm
      refine (List.map_congr_left fun c hc => ?_).trans (List.map_id _)
      exact (c.isReadable_iff.mp (hplace c hc)).2.2

/-- The path where a listing starts: the root, or a text that reads as some
components. -/
def StartsAt (path : String) (base : List PathComponent) : Prop :=
  (path = "" ∧ base = []) ∨
    (path ≠ "" ∧ path ≠ "/" ∧ StatePath.parse path = .ok ⟨base⟩)

theorem parse_placeText_iff {path : String} {base : List PathComponent}
    (place : List PathComponent) (h : StartsAt path base) :
    StatePath.parse (placeText path place) = .ok ⟨base ++ place⟩ ↔
      (base ++ place).length ≤ MAX_PATH_DEPTH ∧
        ∀ c ∈ place, c.isReadable = true := by
  rcases h with ⟨rfl, rfl⟩ | ⟨hempty, hslash, hparse⟩
  · cases place with
    | nil => simp [placeText, StatePath.parse, StatePath.root]
    | cons c rest =>
        have hs : (placeText "" (c :: rest)).toList = '/' ::
            (c.label.toList ++ rest.flatMap fun c => '/' :: c.label.toList) := by
          rw [toList_placeText]
          simp
        by_cases htail : c.label.toList ++
            (rest.flatMap fun c => '/' :: c.label.toList) = []
        · have htext : placeText "" (c :: rest) = "/" := by
            apply String.toList_inj.mp
            rw [hs, htail]
            rfl
          have hlabel : c.label.toList = [] := (List.append_eq_nil_iff.mp htail).1
          rw [htext]
          refine iff_of_false (by simp [StatePath.parse, StatePath.root]) ?_
          rintro ⟨-, hread⟩
          exact (c.isReadable_iff.mp (hread c List.mem_cons_self)).2.1.1 hlabel
        · exact @parse_append_iff _ _ hs htail [] _
            (splitOn_append_labels _ _) (by simp)
  · rcases StatePath.parse_eq_ok hparse with ⟨hroot, -⟩ | ⟨hcons, -, -⟩
    · exact absurd hroot (by simp [hempty, hslash])
    · have hdrop : path.toList.drop 1 ≠ [] := by
        intro hnil
        rw [hnil] at hcons
        exact hslash (String.toList_inj.mp hcons)
      obtain ⟨hall, hcomp, -⟩ := (parse_eq_ok_iff hcons hdrop).mp hparse
      have hs : (placeText path place).toList = '/' :: (path.toList.drop 1 ++
          place.flatMap fun c => '/' :: c.label.toList) := by
        rw [toList_placeText, hcons]
        rfl
      have hne : path.toList.drop 1 ++
          (place.flatMap fun c => '/' :: c.label.toList) ≠ [] := by
        exact fun h => hdrop (List.append_eq_nil_iff.mp h).1
      have hiff := parse_append_iff hs hne (splitOn_append_labels _ _) hall
      dsimp only at hcomp
      rwa [← hcomp] at hiff

end AgentStateGraph
