import AgentStateGraph.Core.Object

/-!
# Path addressing

`StatePath.parse` splits a path on `/` and reads each segment as an index
where it is a number and as a key otherwise.  Several spellings can denote one
location (`/nodes/0`, `/nodes/00` and `/nodes/+0`), while the guards of the
repository compare path strings; the lemmas here relate the two.
-/

namespace AgentStateGraph

/-! ## String tests -/

/-- `str::starts_with`. -/
def startsWith (s p : String) : Bool := p.toList.isPrefixOf s.toList

/-- `path == root || path.starts_with("{root}/")`, the test every path guard
of the repository makes. -/
def isAtOrUnder (root path : String) : Bool :=
  path == root || startsWith path (root ++ "/")

theorem startsWith_iff (s p : String) :
    startsWith s p = true ↔ p.toList <+: s.toList := by
  simp [startsWith]

theorem isAtOrUnder_iff (root path : String) :
    isAtOrUnder root path = true ↔
      root.toList = path.toList ∨ root.toList ++ ['/'] <+: path.toList := by
  simp only [isAtOrUnder, Bool.or_eq_true, beq_iff_eq, startsWith_iff,
    String.toList_append]
  constructor
  · rintro (rfl | h)
    · exact Or.inl rfl
    · exact Or.inr (by simpa using h)
  · rintro (h | h)
    · exact Or.inl (String.toList_inj.mp h).symm
    · exact Or.inr (by simpa using h)

theorem intercalate_append_cons (sep : List Char)
    (as : List (List Char)) (b : List Char) (bs : List (List Char))
    (has : as ≠ []) :
    sep.intercalate (as ++ b :: bs) =
      sep.intercalate as ++ sep ++ sep.intercalate (b :: bs) := by
  induction as with
  | nil => exact absurd rfl has
  | cons a as ih =>
      cases as with
      | nil => simp [List.intercalate_cons_of_ne_nil]
      | cons a' as =>
          rw [List.cons_append, List.intercalate_cons_of_ne_nil (by simp),
            ih (by simp), List.intercalate_cons_cons]
          simp

/-- Splitting at a separator turns "equal, or continued after the separator"
into the order of segment lists. -/
theorem splitOn_isPrefix_iff (u v : List Char) :
    u.splitOn '/' <+: v.splitOn '/' ↔ u = v ∨ u ++ ['/'] <+: v := by
  constructor
  · rintro ⟨rest, hrest⟩
    have hu : ['/'].intercalate (u.splitOn '/') = u :=
      List.intercalate_splitOn '/'
    have hv : ['/'].intercalate (v.splitOn '/') = v :=
      List.intercalate_splitOn '/'
    rw [← hrest] at hv
    cases rest with
    | nil =>
        rw [List.append_nil, hu] at hv
        exact Or.inl hv
    | cons seg rest =>
        refine Or.inr ⟨['/'].intercalate (seg :: rest), ?_⟩
        rw [← hv, intercalate_append_cons _ _ _ _ (List.splitOn_ne_nil _ _), hu]
  · rintro (rfl | ⟨rest, rfl⟩)
    · exact List.prefix_refl _
    · rw [List.append_assoc, List.singleton_append,
        List.splitOn_append_cons_self]
      exact List.prefix_append _ _

/-! ## Components -/

/-- Maximum number of path components accepted by `StatePath.parse`. -/
def MAX_PATH_DEPTH : ℕ := 64

/-- Maximum length in bytes of a single path segment. -/
def MAX_SEGMENT_LEN : ℕ := 4096

/-- A component of a path: a map key or a list index. -/
inductive PathComponent where
  | key (k : String)
  | index (i : ℕ)
deriving DecidableEq

/-- A path into a state tree. -/
structure StatePath where
  components : List PathComponent
deriving DecidableEq

/-- Errors that can occur when parsing a path. -/
inductive PathError where
  | mustStartWithSlash
  | emptySegment
  | tooDeep (depth : ℕ)
  | segmentTooLong (index len : ℕ)
deriving DecidableEq

/-- `str::parse::<usize>`: an optional `+`, then decimal digits, below
`2 ^ 64`. -/
def parseUsize (segment : List Char) : Option ℕ :=
  let digits := match segment with
    | '+' :: rest => rest
    | _ => segment
  if digits.isEmpty || !digits.all Char.isDigit then none
  else
    let n := digits.foldl (fun n c => 10 * n + (c.toNat - 48)) 0
    if n < 2 ^ 64 then some n else none

/-- What an accepted segment denotes. -/
def PathComponent.ofSegment (segment : List Char) : PathComponent :=
  match parseUsize segment with
  | some n => .index n
  | none => .key (String.ofList segment)

namespace StatePath

/-- The root path. -/
def root : StatePath := ⟨[]⟩

def isRoot (p : StatePath) : Bool := p.components.isEmpty

/-- The segments of a path string after its leading slash. -/
def segments (s : String) : List (List Char) := (s.toList.drop 1).splitOn '/'

/-- The per-segment checks, in order; the first failure wins. -/
def parseSegments : ℕ → List (List Char) → Except PathError (List PathComponent)
  | _, [] => .ok []
  | i, segment :: rest =>
      if segment.isEmpty then .error .emptySegment
      else if MAX_SEGMENT_LEN < (String.ofList segment).utf8ByteSize then
        .error (.segmentTooLong i (String.ofList segment).utf8ByteSize)
      else
        match parseSegments (i + 1) rest with
        | .ok components => .ok (PathComponent.ofSegment segment :: components)
        | .error e => .error e

/-- Parse a path from a string like `/nodes/0/hostname`. -/
def parse (s : String) : Except PathError StatePath :=
  if s = "" ∨ s = "/" then .ok root
  else if startsWith s "/" then
    match parseSegments 0 (segments s) with
    | .error e => .error e
    | .ok components =>
        if MAX_PATH_DEPTH < components.length then
          .error (.tooDeep components.length)
        else .ok ⟨components⟩
  else .error .mustStartWithSlash

/-- `Display` of a component list, before the special case of the root. -/
def render : List PathComponent → String
  | [] => ""
  | .key k :: rest => "/" ++ k ++ render rest
  | .index i :: rest => "/" ++ toString i ++ render rest

/-- `Display` of a path. -/
def toString (p : StatePath) : String :=
  if p.components.isEmpty then "/" else render p.components

theorem parseSegments_eq_ok {i : ℕ} {segs : List (List Char)}
    {components : List PathComponent}
    (h : parseSegments i segs = .ok components) :
    components = segs.map PathComponent.ofSegment ∧
      ∀ segment ∈ segs, segment ≠ [] := by
  induction segs generalizing i components with
  | nil =>
      simp only [parseSegments, Except.ok.injEq] at h
      simp [← h]
  | cons segment rest ih =>
      unfold parseSegments at h
      split at h
      · contradiction
      next hempty =>
        split at h
        · contradiction
        · split at h
          next tail hrest =>
            obtain ⟨rfl, hne⟩ := ih hrest
            simp only [Except.ok.injEq] at h
            refine ⟨by simp [← h], ?_⟩
            rintro seg (_ | ⟨_, hmem⟩)
            · simpa using hempty
            · exact hne seg hmem
          · contradiction

theorem parse_eq_ok {s : String} {p : StatePath} (h : parse s = .ok p) :
    ((s = "" ∨ s = "/") ∧ p = root) ∨
      (s.toList = '/' :: s.toList.drop 1 ∧
        p.components = (segments s).map PathComponent.ofSegment ∧
        ∀ segment ∈ segments s, segment ≠ []) := by
  unfold parse at h
  split at h
  next hroot =>
    simp only [Except.ok.injEq] at h
    exact Or.inl ⟨hroot, h.symm⟩
  next =>
    split at h
    next hslash =>
      have hcons : s.toList = '/' :: s.toList.drop 1 := by
        obtain ⟨rest, hrest⟩ := (startsWith_iff _ _).mp hslash
        have hs : s.toList = '/' :: rest := by simpa using hrest.symm
        rw [hs]
        rfl
      split at h
      · contradiction
      next components hseg =>
        split at h
        · contradiction
        · simp only [Except.ok.injEq] at h
          obtain ⟨hcomp, hne⟩ := parseSegments_eq_ok hseg
          exact Or.inr ⟨hcons, by rw [← h]; exact hcomp, hne⟩
    · contradiction

theorem parse_components_ne_nil {s : String} {p : StatePath}
    (h : parse s = .ok p) (hne : ¬(s = "" ∨ s = "/")) :
    p.components ≠ [] := by
  rcases parse_eq_ok h with ⟨hroot, -⟩ | ⟨-, hcomp, -⟩
  · exact absurd hroot hne
  · rw [hcomp]
    simp [segments]

end StatePath

/-! ## Reserved names -/

theorem PathComponent.ofSegment_eq_key {segment : List Char} {k : String}
    (h : PathComponent.ofSegment segment = .key k) : segment = k.toList := by
  unfold PathComponent.ofSegment at h
  split at h
  · contradiction
  · simp only [PathComponent.key.injEq] at h
    rw [← h, String.toList_ofList]

theorem map_key_isPrefix_iff {names : List String} {segs : List (List Char)}
    (hkey : ∀ name ∈ names,
      PathComponent.ofSegment name.toList = .key name) :
    names.map PathComponent.key <+: segs.map PathComponent.ofSegment ↔
      names.map String.toList <+: segs := by
  induction names generalizing segs with
  | nil => simp
  | cons name names ih =>
      have hrest : ∀ n ∈ names, PathComponent.ofSegment n.toList = .key n :=
        fun n hn => hkey n (List.mem_cons_of_mem _ hn)
      cases segs with
      | nil => simp
      | cons segment segs =>
          simp only [List.map_cons, List.cons_prefix_cons, ih hrest]
          constructor
          · rintro ⟨hhead, htail⟩
            exact ⟨(PathComponent.ofSegment_eq_key hhead.symm).symm, htail⟩
          · rintro ⟨hhead, htail⟩
            refine ⟨?_, htail⟩
            rw [← hhead, hkey name (by simp)]

theorem isAtOrUnder_iff_components_isPrefix {root s : String} {p : StatePath}
    {names : List String}
    (hroot : StatePath.parse root = .ok ⟨names.map PathComponent.key⟩)
    (hne : names ≠ []) (h : StatePath.parse s = .ok p) :
    isAtOrUnder root s = true ↔
      names.map PathComponent.key <+: p.components := by
  obtain ⟨hslash, hnames, hsegne⟩ :
      root.toList = '/' :: root.toList.drop 1 ∧
        names.map PathComponent.key =
          (StatePath.segments root).map PathComponent.ofSegment ∧
        ∀ segment ∈ StatePath.segments root, segment ≠ [] := by
    rcases StatePath.parse_eq_ok hroot with ⟨-, hroot'⟩ | hroot'
    · simp [StatePath.root, hne] at hroot'
    · exact hroot'
  have hsegs : StatePath.segments root = names.map String.toList := by
    have hlen := congrArg List.length hnames
    simp only [List.length_map] at hlen
    apply List.ext_getElem (by simpa using hlen.symm)
    intro i h₁ h₂
    have hi := List.getElem_of_eq hnames (i := i) (by simpa using h₂)
    simp only [List.getElem_map] at hi ⊢
    exact PathComponent.ofSegment_eq_key hi.symm
  have hkey : ∀ name ∈ names,
      PathComponent.ofSegment name.toList = .key name := by
    intro name hname
    obtain ⟨i, hi, rfl⟩ := List.getElem_of_mem hname
    have hget := List.getElem_of_eq hnames (i := i) (by simpa using hi)
    simpa [hsegs] using hget.symm
  rw [isAtOrUnder_iff]
  rcases StatePath.parse_eq_ok h with ⟨hs, rfl⟩ | ⟨hs, hcomp, -⟩
  · have hdrop : root.toList.drop 1 ≠ [] := by
      intro hnil
      exact hsegne [] (by simp [StatePath.segments, hnil]) rfl
    have hrootlen : 2 ≤ root.toList.length := by
      have hpos := List.length_pos_of_ne_nil hdrop
      simp only [List.length_drop] at hpos
      omega
    have hslen : s.toList.length ≤ 1 := by
      rcases hs with rfl | rfl <;> simp
    constructor
    · rintro (heq | hpre)
      · rw [heq] at hrootlen
        omega
      · have hle := hpre.length_le
        simp only [List.length_append, List.length_singleton] at hle
        omega
    · intro hpre
      exact absurd (List.prefix_nil.mp hpre) (by simpa using hne)
  · rw [hcomp, map_key_isPrefix_iff hkey, ← hsegs, StatePath.segments,
      StatePath.segments, splitOn_isPrefix_iff]
    conv_lhs => rw [hslash, hs]
    simp

end AgentStateGraph
