import AgentStateGraph.Core.PathText
import AgentStateGraph.Tree.Values

/-!
# Reading listed paths

A listing spells the places of leaves.  Of a tree made from a JSON value, a
listed path leads back to its leaf exactly when every component of the place is
readable and the place is no deeper than a path may be: keys that are empty,
hold a slash, look like numbers or are too long, and leaves deeper than
`MAX_PATH_DEPTH`, are listed under texts that cannot be read.
-/

namespace AgentStateGraph

variable {Id : Type} [Digest Id]

/-! ## Listings with their places -/

/-- A listed path, with the place it is listed for and the leaf there. -/
structure Listed (Id : Type) where
  path : String
  place : List PathComponent
  leaf : Object Id

/-- The children of a container with the steps to them. -/
def Node.steps : Node Id → List (PathComponent × Id)
  | .map entries => entries.toList.map fun e => (.key e.1, e.2)
  | .list items | .set items => items.zipIdx.map fun e => (.index e.2, e.1)

/-- The walk below a container. -/
def collectListedChildren (store : ObjectStore Id)
    (collect : Object Id → String → List PathComponent → List (Listed Id) →
      Except (TreeError Id) (List (Listed Id)))
    (current : String) (place : List PathComponent)
    (children : List (PathComponent × Id)) (listed : List (Listed Id)) :
    Except (TreeError Id) (List (Listed Id)) :=
  children.foldlM
    (fun listed e => do
      let child ← store.require e.2
      collect child (current ++ "/" ++ e.1.label) (place ++ [e.1]) listed)
    listed

/-- The walk of `collectPaths`, with what each path is listed for. -/
def collectListed (store : ObjectStore Id) :
    ℕ → Object Id → String → List PathComponent → List (Listed Id) →
      Except (TreeError Id) (List (Listed Id))
  | 0, _, _, _, listed => .ok listed
  | levels + 1, obj, current, place, listed =>
      if LIST_PATHS_MAX_RESULTS ≤ listed.length then .ok listed
      else
        match obj with
        | .atom _ => .ok (listed ++ [⟨leafPath current, place, obj⟩])
        | .node (.map entries) =>
            if entries.isEmpty then
              .ok (listed ++ [⟨leafPath current, place, obj⟩])
            else
              collectListedChildren store (collectListed store levels) current
                place (Node.steps (.map entries)) listed
        | .node n =>
            collectListedChildren store (collectListed store levels) current
              place n.steps listed

def treeListListed (store : ObjectStore Id) (root : Id) (pre : String)
    (maxDepth : ℕ) : Except (TreeError Id) (List (Listed Id)) := do
  let rootObj ← store.require root
  let depth := min maxDepth LIST_PATHS_HARD_CEILING
  let listed ←
    if pre = "" ∨ pre = "/" then
      collectListed store (depth + 1) rootObj "" [] []
    else do
      let path ← parsePath pre
      let obj ← treeGet store root path
      collectListed store (depth + 1) obj pre path.components []
  .ok (listed.take LIST_PATHS_MAX_RESULTS)

/-! ## They list the paths -/

theorem foldlM_map_state {ε α β σ τ : Type} {f : σ → α → Except ε σ}
    {g : τ → β → Except ε τ} {s : τ → σ} {t : β → α}
    (hstep : ∀ acc x, f (s acc) (t x) = (g acc x).map s) (l : List β)
    (acc : τ) :
    (l.map t).foldlM f (s acc) = (l.foldlM g acc).map s := by
  induction l generalizing acc with
  | nil => rfl
  | cons x l ih =>
      rw [List.map_cons, List.foldlM_cons, List.foldlM_cons, hstep]
      cases g acc x with
      | error e => rfl
      | ok acc' => exact ih acc'

omit [Digest Id] in
theorem labels_steps (entries : BTreeMap String Id) (items : List Id) :
    ((Node.map entries).steps.map fun e => (e.1.label, e.2)) =
        entries.toList ∧
      ((Node.list items).steps.map fun e => (e.1.label, e.2)) =
        indexed items := by
  constructor
  · rw [Node.steps, List.map_map]
    exact List.map_id _
  · rw [Node.steps, List.map_map]
    rfl

theorem collectPaths_eq (store : ObjectStore Id) (levels : ℕ) (obj : Object Id)
    (current : String) (place : List PathComponent)
    (listed : List (Listed Id)) :
    collectPaths store levels obj current (listed.map Listed.path) =
      (collectListed store levels obj current place listed).map
        (List.map Listed.path) := by
  induction levels generalizing obj current place listed with
  | zero => rfl
  | succ levels ih =>
      have hchildren : ∀ steps : List (PathComponent × Id),
          collectChildren store (collectPaths store levels) current
              (steps.map fun e => (e.1.label, e.2)) (listed.map Listed.path) =
            (collectListedChildren store (collectListed store levels) current
              place steps listed).map (List.map Listed.path) := by
        intro steps
        refine foldlM_map_state ?_ steps listed
        intro acc e
        cases hchild : store.require e.2 with
        | error err => rfl
        | ok child => exact ih _ _ _ _
      rw [collectPaths.eq_def, collectListed.eq_def]
      dsimp only
      rw [List.length_map]
      by_cases hfull : LIST_PATHS_MAX_RESULTS ≤ listed.length
      · rw [if_pos hfull, if_pos hfull]
        rfl
      · rw [if_neg hfull, if_neg hfull]
        rcases obj with a | ⟨entries⟩ | ⟨items⟩ | ⟨items⟩
        · simp [Except.map]
        · dsimp only
          by_cases hempty : entries.isEmpty = true
          · rw [if_pos hempty, if_pos hempty]
            simp [Except.map]
          · rw [if_neg hempty, if_neg hempty, ← hchildren,
              (labels_steps entries []).1]
        · dsimp only
          rw [← hchildren, (labels_steps ∅ items).2]
        · dsimp only
          rw [← hchildren]
          exact congrArg (fun l => collectChildren store _ current l _)
            (labels_steps ∅ items).2.symm

theorem treeListPaths_eq (store : ObjectStore Id) (root : Id) (pre : String)
    (maxDepth : ℕ) :
    treeListPaths store root pre maxDepth =
      (treeListListed store root pre maxDepth).map
        (List.map Listed.path) := by
  have htake : ∀ x : Except (TreeError Id) (List (Listed Id)),
      ((x.map (List.map Listed.path)) >>= fun paths =>
          Except.ok (paths.take LIST_PATHS_MAX_RESULTS)) =
        (x >>= fun listed =>
          Except.ok (listed.take LIST_PATHS_MAX_RESULTS)).map
          (List.map Listed.path) := by
    intro x
    cases x with
    | error e => rfl
    | ok listed =>
        simp [Except.map, bind, Except.bind, List.map_take]
  unfold treeListPaths treeListListed
  cases store.require root with
  | error e => rfl
  | ok rootObj =>
      simp only [Except.ok_bind]
      by_cases hpre : pre = "" ∨ pre = "/"
      · rw [if_pos hpre, if_pos hpre, ← htake, ← collectPaths_eq]
        rfl
      · rw [if_neg hpre, if_neg hpre]
        cases parsePath pre with
        | error e => rfl
        | ok path =>
            simp only [Except.ok_bind]
            cases treeGet store root path with
            | error e => rfl
            | ok obj =>
                simp only [Except.ok_bind]
                rw [← htake, ← collectPaths_eq]
                rfl

/-! ## What a path is listed for -/

/-- The leaf stands at its place below the root, and its path is the text of
what the place has below the start. -/
structure ListedBelow (store : ObjectStore Id) (root : Id) (start : String)
    (base : List PathComponent) (l : Listed Id) : Prop where
  spelled : ∃ below, l.place = base ++ below ∧
    l.path = leafPath (placeText start below)
  stands : ∃ x, lookupAt store (some root) l.place = some x ∧
    store.get x = some l.leaf

theorem placeText_append (path : String) (place : List PathComponent)
    (c : PathComponent) :
    placeText path (place ++ [c]) = placeText path place ++ "/" ++ c.label := by
  induction place generalizing path with
  | nil => rfl
  | cons d rest ih => exact ih _

omit [Digest Id] in
/-- A step leads to the child that a path reads, except into a set. -/
theorem childIdAt_of_mem_steps {n : Node Id} {e : PathComponent × Id}
    (hset : ∀ items, n ≠ .set items) (he : e ∈ n.steps) :
    childIdAt (.node n) e.1 = some e.2 := by
  match n with
  | .map entries =>
      obtain ⟨entry, hentry, rfl⟩ := List.mem_map.mp he
      exact Std.ExtTreeMap.mem_toList_iff_getElem?_eq_some.mp hentry
  | .list items =>
      obtain ⟨entry, hentry, rfl⟩ := List.mem_map.mp he
      exact List.mem_zipIdx_iff_getElem?.mp hentry
  | .set items => exact absurd rfl (hset items)

section Below

variable {store : ObjectStore Id} {root : Id} {start : String}
  {base : List PathComponent}

theorem collectListed_below {levels : ℕ} {id : Id} {obj : Object Id}
    (below : List PathComponent) {listed out : List (Listed Id)}
    (htree : JsonTree store id) (hget : store.get id = some obj)
    (hplace : lookupAt store (some root) (base ++ below) = some id)
    (hlisted : ∀ l ∈ listed, ListedBelow store root start base l)
    (h : collectListed store levels obj (placeText start below) (base ++ below)
      listed = .ok out) :
    ∀ l ∈ out, ListedBelow store root start base l := by
  induction levels generalizing id obj below listed out with
  | zero =>
      cases h
      exact hlisted
  | succ levels ih =>
      have hleaf : ∀ l ∈ listed ++
          [⟨leafPath (placeText start below), base ++ below, obj⟩],
          ListedBelow store root start base l := by
        intro l hl
        rcases List.mem_append.mp hl with hl | hl
        · exact hlisted l hl
        · rw [List.mem_singleton.mp hl]
          exact ⟨⟨below, rfl, rfl⟩, id, hplace, hget⟩
      have hchildren : ∀ n, obj = .node n → (∀ items, n ≠ .set items) →
          ∀ {out}, collectListedChildren store (collectListed store levels)
            (placeText start below) (base ++ below) n.steps listed =
              .ok out →
            ∀ l ∈ out, ListedBelow store root start base l := by
        rintro n rfl hset out h
        refine Except.foldlM_invariant
          (P := fun acc => ∀ l ∈ acc, ListedBelow store root start base l)
          ?_ hlisted h
        intro acc e he acc' hacc hstep
        obtain ⟨child, hchild, hstep⟩ := Except.bind_eq_ok_iff.mp hstep
        have hid := childIdAt_of_mem_steps hset he
        have hmem := mem_childIds_of_childIdAt hid
        rw [← placeText_append, List.append_assoc] at hstep
        refine ih _ (htree.child hget hmem) (require_eq_ok_iff.mp hchild) ?_
          hacc hstep
        rw [← List.append_assoc, lookupAt_append, hplace, lookupAt_of_get hget,
          hid]
        rfl
      obtain ⟨o, ho, hjson⟩ := htree id (Worklist.Reaches.refl _ id)
      rw [hget] at ho
      cases ho
      rw [collectListed.eq_def] at h
      dsimp only at h
      split at h
      · cases h
        exact hlisted
      · match obj, hjson, hleaf, hchildren, h with
        | .atom a, _, hleaf, _, h =>
            cases h
            exact hleaf
        | .node (.map entries), _, hleaf, hchildren, h =>
            dsimp only at h
            split at h
            · cases h
              exact hleaf
            · exact hchildren _ rfl (by simp) h
        | .node (.list items), _, _, hchildren, h =>
            exact hchildren _ rfl (by simp) h
        | .node (.set items), hjson, _, _, _ =>
            exact absurd hjson (by simp [Object.isJson])

end Below

section

variable {segment : List Char} {store : ObjectStore Id}

theorem slash_notMem_of_mem_splitOn {l : List Char}
    (h : segment ∈ l.splitOn '/') : '/' ∉ segment := by
  induction l generalizing segment with
  | nil =>
      rw [List.splitOn_nil, List.mem_singleton] at h
      rw [h]
      exact List.not_mem_nil
  | cons c l ih =>
      rw [List.splitOn_cons_eq_if_modifyHead] at h
      split at h
      · rcases List.mem_cons.mp h with rfl | h
        · exact List.not_mem_nil
        · exact ih h
      next hc =>
        obtain ⟨first, rest, hsplit⟩ :=
          List.exists_cons_of_ne_nil (List.splitOn_ne_nil '/' l)
        rw [hsplit, List.modifyHead_cons] at h
        rcases List.mem_cons.mp h with rfl | h
        · have hfirst := ih (by rw [hsplit]; exact List.mem_cons_self)
          intro hmem
          rcases List.mem_cons.mp hmem with heq | hmem
          · exact hc (by rw [heq]; exact beq_self_eq_true _)
          · exact hfirst hmem
        · exact ih (by rw [hsplit]; exact List.mem_cons_of_mem _ h)

theorem parseUsize_lt {n : ℕ} (h : parseUsize segment = some n) :
    n < 2 ^ 64 := by
  have hfits : ∀ (invalid : Bool) (value : ℕ),
      (if invalid = true then none
        else if value < 2 ^ 64 then some value else none) = some n →
        n < 2 ^ 64 := by
    intro invalid value h
    split at h
    · contradiction
    · split at h
      next hlt =>
        cases h
        exact hlt
      next => contradiction
  unfold parseUsize at h
  split at h
  · exact hfits _ _ h
  · exact hfits _ _ h

theorem isReadable_ofSegment (hok : SegmentOk segment)
    (hslash : '/' ∉ segment) :
    (PathComponent.ofSegment segment).isReadable = true := by
  unfold PathComponent.ofSegment
  cases hparse : parseUsize segment with
  | none =>
      obtain ⟨hne, hsize⟩ := hok
      simp [PathComponent.isReadable, hslash, hparse, hne, hsize]
  | some n =>
      simpa [PathComponent.isReadable] using parseUsize_lt hparse

theorem StartsAt.isReadable {path : String} {base : List PathComponent}
    (h : StartsAt path base) : ∀ c ∈ base, c.isReadable = true := by
  rcases h with ⟨-, rfl⟩ | ⟨hempty, hslash, hparse⟩
  · simp
  · intro c hc
    rcases StatePath.parse_eq_ok hparse with ⟨hroot, -⟩ | ⟨hcons, -, -⟩
    · exact absurd hroot (by simp [hempty, hslash])
    · have hdrop : path.toList.drop 1 ≠ [] := by
        intro hnil
        rw [hnil] at hcons
        exact hslash (String.toList_inj.mp hcons)
      obtain ⟨hall, hcomp, -⟩ := (parse_eq_ok_iff hcons hdrop).mp hparse
      dsimp only at hcomp
      rw [hcomp] at hc
      obtain ⟨segment, hsegment, rfl⟩ := List.mem_map.mp hc
      exact isReadable_ofSegment (hall segment hsegment)
        (slash_notMem_of_mem_splitOn hsegment)

theorem parse_leafPath (path : String) :
    StatePath.parse (leafPath path) = StatePath.parse path := by
  unfold leafPath
  split
  next h =>
    rw [h]
    rfl
  next => rfl

theorem ListedBelow.reads_iff {root : Id} {start : String}
    {base : List PathComponent} {l : Listed Id}
    (h : ListedBelow store root start base l) (hstart : StartsAt start base) :
    (∃ p, StatePath.parse l.path = .ok p ∧ p.components = l.place ∧
        treeGet store root p = .ok l.leaf) ↔
      l.place.length ≤ MAX_PATH_DEPTH ∧
        ∀ c ∈ l.place, c.isReadable = true := by
  obtain ⟨⟨below, hplace, hpath⟩, x, hx, hget⟩ := h
  have hparse := parse_placeText_iff below hstart
  rw [hpath, parse_leafPath]
  constructor
  · rintro ⟨p, hp, hcomp, -⟩
    have hsame : p = ⟨base ++ below⟩ := by
      cases p
      rw [← hplace, ← hcomp]
    rw [hsame] at hp
    obtain ⟨hdepth, hread⟩ := hparse.mp hp
    rw [hplace]
    refine ⟨hdepth, fun c hc => ?_⟩
    rcases List.mem_append.mp hc with hc | hc
    · exact hstart.isReadable c hc
    · exact hread c hc
  · rintro ⟨hdepth, hread⟩
    rw [hplace] at hdepth hread
    refine ⟨⟨base ++ below⟩, hparse.mpr ⟨hdepth, fun c hc =>
      hread c (List.mem_append_right _ hc)⟩, hplace.symm, ?_⟩
    refine treeGet_eq_ok_iff.mpr ⟨x, ?_, hget⟩
    rw [idAt_eq_lookupAt, ← hplace]
    exact hx

theorem JsonTree.of_lookupAt {id x : Id} (h : JsonTree store id)
    {comps : List PathComponent}
    (hx : lookupAt store (some id) comps = some x) : JsonTree store x := by
  induction comps generalizing id with
  | nil =>
      cases hx
      exact h
  | cons c rest ih =>
      obtain ⟨o, ho, -⟩ := h id (Worklist.Reaches.refl _ id)
      rw [lookupAt_of_get ho] at hx
      cases hchild : childIdAt o c with
      | none =>
          rw [hchild, lookupAt_none] at hx
          contradiction
      | some child =>
          rw [hchild] at hx
          exact ih (h.child ho (mem_childIds_of_childIdAt hchild)) hx

theorem JsonTree.mono {s t : ObjectStore Id} (hle : s ≤ t) {id : Id}
    (h : JsonTree s id) : JsonTree t id := by
  intro x hx
  obtain ⟨o, ho, hjson⟩ : ∃ o, s.get x = some o ∧ o.isJson = true := by
    refine h x ?_
    induction hx with
    | refl => exact Worklist.Reaches.refl _ _
    | @tail y z _ hstep ih =>
        obtain ⟨o, ho, -⟩ := h y ih
        refine ih.trans (.single ?_)
        rw [ObjectStore.children_of_get (hle y o ho)] at hstep
        rwa [ObjectStore.children_of_get ho]
  exact ⟨o, hle x o ho, hjson⟩

theorem treeListListed_below {root : Id} (htree : JsonTree store root)
    {pre : String} {maxDepth : ℕ} {listed : List (Listed Id)}
    (h : treeListListed store root pre maxDepth = .ok listed) :
    ∃ start base, StartsAt start base ∧
      ∀ l ∈ listed, ListedBelow store root start base l := by
  obtain ⟨rootObj, hroot, h⟩ := Except.bind_eq_ok_iff.mp h
  have hget := require_eq_ok_iff.mp hroot
  dsimp only at h
  split at h
  · obtain ⟨all, hall, htake⟩ := Except.bind_eq_ok_iff.mp h
    cases htake
    refine ⟨"", [], Or.inl ⟨rfl, rfl⟩, fun l hl => ?_⟩
    exact collectListed_below [] htree hget rfl (by simp) hall l
      (List.mem_of_mem_take hl)
  next hpre =>
    obtain ⟨path, hpath, h⟩ := Except.bind_eq_ok_iff.mp h
    obtain ⟨obj, hobj, h⟩ := Except.bind_eq_ok_iff.mp h
    obtain ⟨all, hall, htake⟩ := Except.bind_eq_ok_iff.mp h
    cases htake
    obtain ⟨x, hx, hgetx⟩ := treeGet_eq_ok_iff.mp hobj
    have hparse : StatePath.parse pre = .ok path := by
      unfold parsePath at hpath
      split at hpath
      next p hp =>
        cases hpath
        exact hp
      next => contradiction
    rw [not_or] at hpre
    refine ⟨pre, path.components,
      Or.inr ⟨hpre.1, hpre.2, hparse⟩, fun l hl => ?_⟩
    rw [idAt_eq_lookupAt] at hx
    rw [← List.append_nil path.components] at hx hall
    exact collectListed_below [] (htree.of_lookupAt hx) hgetx hx (by simp)
      hall l (List.mem_of_mem_take hl)

end

/-- Of a tree made from a JSON value, in a store that has kept it, each path
that is listed reads as the place of its leaf and leads to it exactly when the
components of the place are readable and it is not too deep. -/
theorem treeListPaths_reads_iff {before store : ObjectStore Id} {value : Json}
    (hvalue : value.isCanonical = true)
    (hle : (jsonToTree before value).2 ≤ store) {pre : String} {maxDepth : ℕ}
    {paths : List String}
    (h : treeListPaths store (jsonToTree before value).1 pre maxDepth =
      .ok paths) :
    ∃ listed : List (Listed Id),
      treeListListed store (jsonToTree before value).1 pre maxDepth =
          .ok listed ∧
        paths = listed.map Listed.path ∧
      ∀ l ∈ listed,
        ((∃ p, StatePath.parse l.path = .ok p ∧ p.components = l.place ∧
            treeGet store (jsonToTree before value).1 p = .ok l.leaf) ↔
          l.place.length ≤ MAX_PATH_DEPTH ∧
            ∀ c ∈ l.place, c.isReadable = true) := by
  have htree := (jsonTree_jsonToTree before hvalue).mono hle
  rw [treeListPaths_eq] at h
  cases hlisted : treeListListed store (jsonToTree before value).1 pre
      maxDepth with
  | error e =>
      rw [hlisted] at h
      cases h
  | ok listed =>
      rw [hlisted] at h
      cases h
      obtain ⟨start, base, hstart, hbelow⟩ := treeListListed_below htree hlisted
      exact ⟨listed, rfl, rfl, fun l hl => (hbelow l hl).reads_iff hstart⟩

namespace NumericKey

open ContentKey

/-- `{"0": "x"}` -/
def value : Json := .object [("0", .string "x")]

def store : ObjectStore ContentKey := (jsonToTree AddressedMap.empty value).2

def root : ContentKey := (jsonToTree AddressedMap.empty value).1

theorem paths_eq : treeListPaths store root "" 8 = .ok ["/0"] := by
  decide

end NumericKey

open NumericKey in
theorem treeListPaths_reads_iff_of_numeric_key :
    ∃ listed : List (Listed ContentKey),
      treeListListed store root "" 8 = .ok listed ∧
        ["/0"] = listed.map Listed.path ∧
      ∀ l ∈ listed,
        ((∃ p, StatePath.parse l.path = .ok p ∧ p.components = l.place ∧
            treeGet store root p = .ok l.leaf) ↔
          l.place.length ≤ MAX_PATH_DEPTH ∧
            ∀ c ∈ l.place, c.isReadable = true) :=
  @treeListPaths_reads_iff ContentKey _ AddressedMap.empty store value
    (by decide) (le_refl _) "" 8 _ paths_eq

open NumericKey in
/-- A key that looks like a number is listed under a path that asks for a
position. -/
theorem treeListPaths_numeric_key_unreadable :
    treeListPaths store root "" 8 = .ok ["/0"] ∧
      StatePath.parse "/0" = .ok ⟨[.index 0]⟩ ∧
      treeGet store root ⟨[.index 0]⟩ =
        .error (.typeMismatch "/0" "list" "map") := by
  refine ⟨paths_eq, by decide, by decide⟩

end AgentStateGraph
