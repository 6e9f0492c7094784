import AgentStateGraph.Lib.RowPatch
import AgentStateGraph.Tree.Read

/-!
# The leaves of a tree, and their difference

The leaf-value index holds one row for each leaf whose value has a text.  It
is built by a walk over a whole tree and brought from one tree to the next by
the difference of their leaves, which skips every subtree that two trees
share.

The difference looks objects up one by one and reads an id that is not stored
as no subtree at all.  Where every id it looks up is stored, it says how the
rows of one tree become those of the other, provided that no two atoms of the
old tree are at the same path.  Paths are texts, so a key that contains a
slash can spell the path of another leaf.
-/

namespace AgentStateGraph

open KeyedMap

variable {Id : Type} [Digest Id]

/-! ## Walking all leaves -/

/-- The children of a container, by key or by position. -/
def Node.labelled : Node Id → List (String × Id)
  | .map entries => entries.toList
  | .list items | .set items => indexed items

/-- What a leaf gives at its path, over the whole tree.  The number counts the
levels that are left, this one included. -/
def walkLeaves {β : Type} (leaf : Atom → String → List β)
    (store : ObjectStore Id) :
    ℕ → Object Id → String → Except (TreeError Id) (List β)
  | 0, _, _ => .ok []
  | _ + 1, .atom a, current => .ok (leaf a (leafPath current))
  | levels + 1, .node n, current => do
      let parts ← n.labelled.mapM fun e => do
        let child ← store.require e.2
        walkLeaves leaf store levels child (current ++ "/" ++ e.1)
      .ok parts.flatten

section Text

variable (text : TextTables)

def atomValueString (a : Atom) : Option String := searchText text a

/-- The row of a leaf. -/
def leafRow (a : Atom) (path : String) : List (String × String) :=
  match atomValueString text a with
  | some value => [(path, value)]
  | none => []

/-- The path of a leaf that has a row. -/
def leafRowPath (a : Atom) (path : String) : List String :=
  if (atomValueString text a).isSome then [path] else []

/-- The path of an atom, whether it has a row or not. -/
def atomPath (_ : Atom) (path : String) : List String := [path]

def collectLeaves (store : ObjectStore Id) :
    ℕ → Object Id → String → Except (TreeError Id) (List (String × String)) :=
  walkLeaves (leafRow text) store

def collectLeafPaths (store : ObjectStore Id) :
    ℕ → Object Id → String → Except (TreeError Id) (List String) :=
  walkLeaves (leafRowPath text) store

def treeCollectLeaves (store : ObjectStore Id) (root : Id) :
    Except (TreeError Id) (List (String × String)) := do
  let rootObj ← store.require root
  collectLeaves text store (LIST_PATHS_HARD_CEILING + 1) rootObj ""

/-! ## The difference -/

/-- Items by position, as far as either list goes. -/
def pairItems (old new : List Id) : List (String × Option Id × Option Id) :=
  (List.range (max old.length new.length)).map fun i =>
    (Nat.repr i, old[i]?, new[i]?)

/-- The children of two containers side by side; none when one is a map and
the other is not. -/
def pairNodes : Node Id → Node Id → Option (List (String × Option Id × Option Id))
  | .map old, .map new =>
      some ((allKeys [old, new]).map fun k => (k, old[k]?, new[k]?))
  | .list old, .list new | .list old, .set new
  | .set old, .list new | .set old, .set new => some (pairItems old new)
  | .map _, .list _ | .map _, .set _ | .list _, .map _ | .set _, .map _ => none

/-- One tree is replaced by another as a whole. -/
def replaceLeaves (store : ObjectStore Id) (levels : ℕ) (old new : Object Id)
    (path : String) :
    Except (TreeError Id) (RowPatch String String) := do
  let removed ← collectLeafPaths text store levels old path
  let added ← collectLeaves text store levels new path
  .ok ⟨removed, added⟩

def diffRecursive (store : ObjectStore Id) :
    ℕ → Option Id → Option Id → String →
      Except (TreeError Id) (RowPatch String String)
  | 0, _, _, _ => .ok ⟨[], []⟩
  | levels + 1, old, new, path =>
      if old = new then .ok ⟨[], []⟩
      else
        match old.bind store.get, new.bind store.get with
        | none, none => .ok ⟨[], []⟩
        | some o, none => do
            let removed ← collectLeafPaths text store (levels + 1) o path
            .ok ⟨removed, []⟩
        | none, some n => do
            let added ← collectLeaves text store (levels + 1) n path
            .ok ⟨[], added⟩
        -- The old row goes even where the old atom had none.
        | some (.atom _), some (.atom b) =>
            .ok ⟨[leafPath path], leafRow text b (leafPath path)⟩
        | some (.node m), some (.atom b) => do
            let removed ←
              collectLeafPaths text store (levels + 1) (.node m) path
            .ok ⟨removed, leafRow text b (leafPath path)⟩
        | some (.atom _), some (.node n) => do
            let added ← collectLeaves text store (levels + 1) (.node n) path
            .ok ⟨[leafPath path], added⟩
        | some (.node m), some (.node n) =>
            match pairNodes m n with
            | some pairs => do
                let parts ← pairs.mapM fun e =>
                  diffRecursive store levels e.2.1 e.2.2 (path ++ "/" ++ e.1)
                .ok (RowPatch.flatten parts)
            | none =>
                replaceLeaves text store (levels + 1) (.node m) (.node n) path

def treeDiffLeaves (store : ObjectStore Id) (oldRoot : Option Id)
    (newRoot : Id) : Except (TreeError Id) (RowPatch String String) :=
  diffRecursive text store (LIST_PATHS_HARD_CEILING + 1) oldRoot (some newRoot)
    ""

end Text

/-- Every id the difference looks up is stored. -/
def diffFinds (store : ObjectStore Id) : ℕ → Option Id → Option Id → Bool
  | 0, _, _ => true
  | levels + 1, old, new =>
      if old = new then true
      else
        old.all (fun id => (store.get id).isSome) &&
        new.all (fun id => (store.get id).isSome) &&
        match old.bind store.get, new.bind store.get with
        | some (.node m), some (.node n) =>
            (pairNodes m n).all fun pairs =>
              pairs.all fun e => diffFinds store levels e.2.1 e.2.2
        | _, _ => true

/-! ## Trees as content

An id names at most one object, whether or not a store has it.  The leaves of
a tree are a matter of its id. -/

/-- The object an id is the digest of. -/
noncomputable def content (id : Id) : Option (Object Id) :=
  open Classical in
  if h : ∃ o : Object Id, o.id = id then some h.choose else none

theorem content_of_get {store : ObjectStore Id} {id : Id} {o : Object Id}
    (h : store.get id = some o) : content id = some o := by
  have hex : ∃ o : Object Id, o.id = id := ⟨o, ObjectStore.id_eq_of_get h⟩
  rw [content, dif_pos hex]
  have hsame : hex.choose.id = o.id :=
    hex.choose_spec.trans (ObjectStore.id_eq_of_get h).symm
  rw [Object.id_injective hsame]

section Content

variable {β : Type} (leaf : Atom → String → List β)

noncomputable def leavesOf : ℕ → Object Id → String → List β
  | 0, _, _ => []
  | _ + 1, .atom a, current => leaf a (leafPath current)
  | levels + 1, .node n, current =>
      n.labelled.flatMap fun e =>
        match content e.2 with
        | some child => leavesOf levels child (current ++ "/" ++ e.1)
        | none => []

/-- The leaves below an id, if there is one. -/
noncomputable def leavesAt (levels : ℕ) (id : Option Id) (current : String) :
    List β :=
  match id.bind content with
  | some o => leavesOf leaf levels o current
  | none => []

theorem leavesOf_node (levels : ℕ) (n : Node Id) (current : String) :
    leavesOf leaf (levels + 1) (.node n) current =
      n.labelled.flatMap fun e =>
        leavesAt leaf levels (some e.2) (current ++ "/" ++ e.1) := rfl

@[simp] theorem leavesAt_none (levels : ℕ) (current : String) :
    leavesAt leaf levels (none : Option Id) current = [] := rfl

@[simp] theorem leavesAt_zero (id : Option Id) (current : String) :
    leavesAt leaf 0 id current = [] := by
  unfold leavesAt
  cases id.bind content with
  | none => rfl
  | some o => rfl

theorem leavesAt_of_get {store : ObjectStore Id} {id : Id} {o : Object Id}
    (h : store.get id = some o) (levels : ℕ) (current : String) :
    leavesAt leaf levels (some id) current = leavesOf leaf levels o current := by
  simp [leavesAt, content_of_get h]

variable {leaf}

theorem walkLeaves_eq_ok {store : ObjectStore Id} {levels : ℕ}
    {o : Object Id} {current : String} {found : List β}
    (h : walkLeaves leaf store levels o current = .ok found) :
    found = leavesOf leaf levels o current := by
  induction levels generalizing o current found with
  | zero =>
      simp only [walkLeaves, Except.ok.injEq] at h
      exact h.symm
  | succ levels ih =>
      cases o with
      | atom a =>
          simp only [walkLeaves, Except.ok.injEq] at h
          exact h.symm
      | node n =>
          simp only [walkLeaves] at h
          obtain ⟨parts, hparts, hfound⟩ := Except.bind_eq_ok_iff.mp h
          cases hfound
          rw [leavesOf_node, List.flatMap_def]
          congr 1
          refine Except.eq_map_of_mapM_eq_ok hparts ?_
          intro e _ part hpart
          obtain ⟨child, hchild, hrest⟩ := Except.bind_eq_ok_iff.mp hpart
          rw [leavesAt_of_get leaf (require_eq_ok_iff.mp hchild)]
          exact ih hrest

end Content

/-! ## The difference leads from one tree to the other -/

section Pairs

variable {γ : Type} {F : String → Option Id → List γ}

omit [Digest Id] in
theorem flatMap_zipIdx {G : ℕ → Option Id → List γ} (items : List Id)
    (offset : ℕ) :
    (items.zipIdx offset).flatMap (fun e => G e.2 (some e.1)) =
      (List.range items.length).flatMap fun i => G (offset + i) items[i]? := by
  induction items generalizing offset with
  | nil => rfl
  | cons x items ih =>
      rw [List.zipIdx_cons, List.flatMap_cons, ih, List.length_cons,
        List.range_succ_eq_map, List.flatMap_cons, List.flatMap_map]
      simp [Nat.add_assoc, Nat.add_comm 1]

omit [Digest Id] in
/-- Positions past the end add nothing. -/
theorem flatMap_indexed (hF : ∀ k, F k none = []) (items : List Id) {n : ℕ}
    (hn : items.length ≤ n) :
    (indexed items).flatMap (fun e => F e.1 (some e.2)) =
      (List.range n).flatMap fun i => F (Nat.repr i) items[i]? := by
  obtain ⟨extra, rfl⟩ := Nat.exists_eq_add_of_le hn
  have hpast : (List.range extra).flatMap
      (fun i => F (Nat.repr (items.length + i)) items[items.length + i]?) =
        [] := by
    refine List.flatMap_eq_nil_iff.mpr ?_
    intro i _
    rw [List.getElem?_eq_none (Nat.le_add_right _ _)]
    exact hF _
  rw [List.range_add, List.flatMap_append, List.flatMap_map, hpast,
    List.append_nil, indexed, List.flatMap_map]
  simpa using flatMap_zipIdx (G := fun i id => F (Nat.repr i) id) items 0

omit [Digest Id] in
/-- Keys that a map lacks add nothing. -/
theorem perm_flatMap_keys (hF : ∀ k, F k none = []) (m : BTreeMap String Id)
    {keys : List String} (hnodup : keys.Nodup)
    (hkeys : ∀ k, m[k]? ≠ none → k ∈ keys) :
    (m.toList.flatMap fun e => F e.1 (some e.2)).Perm
      (keys.flatMap fun k => F k m[k]?) := by
  have hown : m.toList.flatMap (fun e => F e.1 (some e.2)) =
      m.keys.flatMap fun k => F k m[k]? := by
    rw [← Std.ExtTreeMap.map_fst_toList_eq_keys, List.flatMap_map]
    refine List.flatMap_congr ?_
    intro e he
    rw [Std.ExtTreeMap.mem_toList_iff_getElem?_eq_some.mp he]
  have hsplit : keys.flatMap (fun k => F k m[k]?) =
      (keys.filter fun k => k ∈ m).flatMap fun k => F k m[k]? := by
    clear hnodup hkeys hown
    induction keys with
    | nil => rfl
    | cons k keys ih =>
        by_cases hk : k ∈ m
        · rw [List.filter_cons_of_pos (by simpa using hk), List.flatMap_cons,
            List.flatMap_cons, ih]
        · rw [List.filter_cons_of_neg (by simpa using hk), List.flatMap_cons,
            Std.ExtTreeMap.getElem?_eq_none hk, hF, ih, List.nil_append]
  have hsame : m.keys.Perm (keys.filter fun k => k ∈ m) := by
    refine (List.perm_ext_iff_of_nodup Std.ExtTreeMap.nodup_keys
      (hnodup.filter _)).mpr ?_
    intro k
    rw [Std.ExtTreeMap.mem_keys, List.mem_filter, decide_eq_true_iff]
    refine ⟨fun hk => ⟨hkeys k ?_, hk⟩, And.right⟩
    simpa [Option.isSome_iff_ne_none] using
      Std.ExtTreeMap.mem_iff_isSome_getElem?.mp hk
  rw [hown, hsplit]
  exact hsame.flatMap_right _

omit [Digest Id] in
theorem pairNodes_perm (hF : ∀ k, F k none = []) {m n : Node Id}
    {pairs : List (String × Option Id × Option Id)}
    (h : pairNodes m n = some pairs) :
    (m.labelled.flatMap fun e => F e.1 (some e.2)).Perm
        (pairs.flatMap fun e => F e.1 e.2.1) ∧
      (n.labelled.flatMap fun e => F e.1 (some e.2)).Perm
        (pairs.flatMap fun e => F e.1 e.2.2) := by
  have hitems : ∀ old new : List Id,
      (indexed old).flatMap (fun e => F e.1 (some e.2)) =
          (pairItems old new).flatMap (fun e => F e.1 e.2.1) ∧
        (indexed new).flatMap (fun e => F e.1 (some e.2)) =
          (pairItems old new).flatMap fun e => F e.1 e.2.2 := by
    intro old new
    rw [pairItems, List.flatMap_map, List.flatMap_map]
    exact ⟨flatMap_indexed hF old (le_max_left _ _),
      flatMap_indexed hF new (le_max_right _ _)⟩
  match m, n, h with
  | .map old, .map new, h =>
      cases h
      rw [List.flatMap_map, List.flatMap_map]
      refine ⟨perm_flatMap_keys hF old (nodup_allKeys _) ?_,
        perm_flatMap_keys hF new (nodup_allKeys _) ?_⟩
      · intro k hk
        exact mem_allKeys.mpr ⟨old, by simp, hk⟩
      · intro k hk
        exact mem_allKeys.mpr ⟨new, by simp, hk⟩
  | .list old, .list new, h | .list old, .set new, h
  | .set old, .list new, h | .set old, .set new, h =>
      cases h
      exact ⟨.of_eq (hitems old new).1, .of_eq (hitems old new).2⟩

end Pairs

theorem mem_leavesOf {β γ : Type} {leaf : Atom → String → List β}
    {leaf' : Atom → String → List γ} {f : β → γ}
    (hleaf : ∀ a path, ∀ x ∈ leaf a path, f x ∈ leaf' a path) {levels : ℕ}
    {o : Object Id} {current : String} {x : β}
    (hx : x ∈ leavesOf leaf levels o current) :
    f x ∈ leavesOf leaf' levels o current := by
  induction levels generalizing o current with
  | zero => simp [leavesOf] at hx
  | succ levels ih =>
      cases o with
      | atom a => exact hleaf a _ x hx
      | node n =>
          rw [leavesOf_node] at hx ⊢
          obtain ⟨e, he, hx⟩ := List.mem_flatMap.mp hx
          refine List.mem_flatMap.mpr ⟨e, he, ?_⟩
          unfold leavesAt at hx ⊢
          cases hcontent : (some e.2).bind content with
          | none => simp [hcontent] at hx
          | some child =>
              rw [hcontent] at hx
              exact ih hx

/-- What a loop collects, step by step. -/
theorem forall₂_of_mapM_eq_ok {ε α γ : Type} {f : α → Except ε γ}
    {Q : α → γ → Prop} {l : List α} {r : List γ} (h : l.mapM f = .ok r)
    (hf : ∀ x ∈ l, ∀ y, f x = .ok y → Q x y) : List.Forall₂ Q l r := by
  induction l generalizing r with
  | nil =>
      cases h
      exact List.Forall₂.nil
  | cons x l ih =>
      rw [List.mapM_cons] at h
      obtain ⟨a, ha, h⟩ := Except.bind_eq_ok_iff.mp h
      obtain ⟨rest, hrest, h⟩ := Except.bind_eq_ok_iff.mp h
      cases h
      exact List.Forall₂.cons (hf x (by simp) a ha)
        (ih hrest fun y hy => hf y (by simp [hy]))

section Leads

variable {text : TextTables}

theorem fst_mem_leafRowPath (a : Atom) (path : String) :
    ∀ r ∈ leafRow text a path, r.1 ∈ leafRowPath text a path := by
  intro r hr
  unfold leafRow at hr
  unfold leafRowPath
  cases hvalue : atomValueString text a with
  | none => simp [hvalue] at hr
  | some value =>
      rw [hvalue, List.mem_singleton] at hr
      simp [hr]

theorem mem_atomPath (a : Atom) (path : String) :
    ∀ p ∈ leafRowPath text a path, p ∈ atomPath a path := by
  intro p hp
  unfold leafRowPath at hp
  split at hp
  · exact hp
  · simp at hp

theorem fst_mem_atomPath (a : Atom) (path : String) :
    ∀ r ∈ leafRow text a path, r.1 ∈ atomPath a path :=
  fun r hr => mem_atomPath a path _ (fst_mem_leafRowPath a path r hr)

theorem keeps_of_collectLeafPaths {store : ObjectStore Id} {levels : ℕ}
    {o : Object Id} {path : String} {removed : List String}
    (h : collectLeafPaths text store levels o path = .ok removed)
    (added : List (String × String)) :
    (⟨removed, added⟩ : RowPatch String String).Keeps
      (leavesOf (leafRow text) levels o path)
      (leavesOf atomPath levels o path) added [] := by
  rw [walkLeaves_eq_ok h]
  refine RowPatch.keeps_replace ?_ ?_
  · exact fun r hr => mem_leavesOf fst_mem_leafRowPath hr
  · exact fun p hp => mem_leavesOf (f := id) mem_atomPath hp

theorem keeps_of_atom (a : Atom) (levels : ℕ) (path : String)
    (added : List (String × String)) :
    (⟨[leafPath path], added⟩ : RowPatch String String).Keeps
      (leavesOf (leafRow text) (levels + 1) (.atom a : Object Id) path)
      (leavesOf atomPath (levels + 1) (.atom a : Object Id) path) added [] := by
  refine RowPatch.keeps_replace ?_ (List.Subset.refl _)
  exact fun r hr => fst_mem_atomPath a _ r hr

theorem diffFinds_succ {store : ObjectStore Id} {levels : ℕ}
    {old new : Option Id} (h : diffFinds store (levels + 1) old new = true)
    (hne : old ≠ new) :
    (∀ id, old = some id → ∃ o, store.get id = some o) ∧
      (∀ id, new = some id → ∃ n, store.get id = some n) ∧
      ∀ m n pairs, old.bind store.get = some (.node m) →
        new.bind store.get = some (.node n) → pairNodes m n = some pairs →
        ∀ e ∈ pairs, diffFinds store levels e.2.1 e.2.2 = true := by
  rw [diffFinds, if_neg hne, Bool.and_eq_true, Bool.and_eq_true] at h
  obtain ⟨⟨hold, hnew⟩, hpairs⟩ := h
  refine ⟨?_, ?_, ?_⟩
  · rintro id rfl
    exact Option.isSome_iff_exists.mp hold
  · rintro id rfl
    exact Option.isSome_iff_exists.mp hnew
  · intro m n pairs hm hn hp e he
    rw [hm, hn] at hpairs
    simp only [hp, Option.all_some, List.all_eq_true] at hpairs
    exact hpairs e he

variable (text) in
/-- The rows below the places where both trees have the same object, as far
down as their containers are of one kind. -/
noncomputable def sharedRows : ℕ → Option Id → Option Id → String →
    List (String × String)
  | 0, _, _, _ => []
  | levels + 1, old, new, path =>
      if old = new then leavesAt (leafRow text) (levels + 1) old path
      else
        match old.bind content, new.bind content with
        | some (.node m), some (.node n) =>
            ((pairNodes m n).getD []).flatMap fun e =>
              sharedRows levels e.2.1 e.2.2 (path ++ "/" ++ e.1)
        | _, _ => []

variable {levels : ℕ} {old new : Option Id} {path : String}

theorem sharedRows_eq_nil (hne : old ≠ new)
    (h : ∀ m n, old.bind content = some (.node m) →
      new.bind content = some (.node n) → pairNodes m n = none) :
    sharedRows text (levels + 1) old new path = [] := by
  rw [sharedRows, if_neg hne]
  split
  next m n hm hn => rw [h m n hm hn, Option.getD_none, List.flatMap_nil]
  next => rfl

/-- Containers whose children are paired change child by child. -/
theorem keeps_of_pairNodes {m n : Node Id}
    {pairs : List (String × Option Id × Option Id)}
    {parts : List (RowPatch String String)}
    (hpairs : pairNodes m n = some pairs) (hparts : List.Forall₂
      (fun e part => part.Keeps
        (leavesAt (leafRow text) levels e.2.1 (path ++ "/" ++ e.1))
        (leavesAt atomPath levels e.2.1 (path ++ "/" ++ e.1))
        (leavesAt (leafRow text) levels e.2.2 (path ++ "/" ++ e.1))
        (sharedRows text levels e.2.1 e.2.2 (path ++ "/" ++ e.1)))
      pairs parts) :
    (RowPatch.flatten parts).Keeps
      (leavesOf (leafRow text) (levels + 1) (.node m) path)
      (leavesOf atomPath (levels + 1) (.node m) path)
      (leavesOf (leafRow text) (levels + 1) (.node n) path)
      (pairs.flatMap fun e =>
        sharedRows text levels e.2.1 e.2.2 (path ++ "/" ++ e.1)) := by
  have hrows := pairNodes_perm
    (F := fun k id => leavesAt (leafRow text) levels id (path ++ "/" ++ k))
    (fun _ => rfl) hpairs
  have hsites := pairNodes_perm
    (F := fun k id => leavesAt atomPath levels id (path ++ "/" ++ k))
    (fun _ => rfl) hpairs
  rw [leavesOf_node, leavesOf_node, leavesOf_node]
  exact (RowPatch.keeps_flatten hparts).congr hrows.1 hsites.1 hrows.2

theorem diffRecursive_keeps {store : ObjectStore Id}
    {patch : RowPatch String String}
    (h : diffRecursive text store levels old new path = .ok patch)
    (hfinds : diffFinds store levels old new = true) :
    patch.Keeps (leavesAt (leafRow text) levels old path)
      (leavesAt atomPath levels old path)
      (leavesAt (leafRow text) levels new path)
      (sharedRows text levels old new path) := by
  induction levels generalizing old new path patch with
  | zero =>
      cases h
      simpa [sharedRows] using RowPatch.keeps_refl (by simp)
  | succ levels ih =>
      by_cases hne : old = new
      · rw [diffRecursive, if_pos hne] at h
        cases h
        subst hne
        rw [sharedRows, if_pos rfl]
        refine RowPatch.keeps_refl ?_
        unfold leavesAt
        cases old.bind content with
        | none => simp
        | some o => exact fun r hr => mem_leavesOf fst_mem_atomPath hr
      · obtain ⟨hold, hnew, hpairs⟩ := diffFinds_succ hfinds hne
        rw [diffRecursive, if_neg hne] at h
        cases old with
        | none =>
            rw [sharedRows_eq_nil hne (by simp)]
            cases new with
            | none => exact absurd rfl hne
            | some b =>
                obtain ⟨n, hn⟩ := hnew b rfl
                simp only [Option.bind_none, Option.bind_some, hn] at h
                obtain ⟨added, hadded, hpatch⟩ := Except.bind_eq_ok_iff.mp h
                cases hpatch
                rw [walkLeaves_eq_ok hadded, leavesAt_of_get _ hn]
                exact RowPatch.keeps_replace (by simp) (by simp)
        | some a =>
            obtain ⟨o, ho⟩ := hold a rfl
            rw [leavesAt_of_get _ ho, leavesAt_of_get _ ho]
            cases new with
            | none =>
                rw [sharedRows_eq_nil hne (by simp)]
                simp only [Option.bind_none, Option.bind_some, ho] at h
                obtain ⟨removed, hremoved, hpatch⟩ :=
                  Except.bind_eq_ok_iff.mp h
                cases hpatch
                exact keeps_of_collectLeafPaths hremoved []
            | some b =>
                obtain ⟨n, hn⟩ := hnew b rfl
                have ho' := content_of_get ho
                have hn' := content_of_get hn
                rw [leavesAt_of_get _ hn]
                simp only [Option.bind_some, ho, hn] at h hpairs
                match o, n, h, hpairs, ho', hn' with
                | .atom x, .atom y, h, _, ho', _ =>
                    rw [sharedRows_eq_nil hne (by simp [ho'])]
                    cases h
                    exact keeps_of_atom x levels path _
                | .atom x, .node n, h, _, ho', _ =>
                    rw [sharedRows_eq_nil hne (by simp [ho'])]
                    obtain ⟨added, hadded, hpatch⟩ :=
                      Except.bind_eq_ok_iff.mp h
                    cases hpatch
                    rw [walkLeaves_eq_ok hadded]
                    exact keeps_of_atom x levels path _
                | .node m, .atom y, h, _, _, hn' =>
                    rw [sharedRows_eq_nil hne (by simp [hn'])]
                    obtain ⟨removed, hremoved, hpatch⟩ :=
                      Except.bind_eq_ok_iff.mp h
                    cases hpatch
                    exact keeps_of_collectLeafPaths hremoved _
                | .node m, .node n, h, hpairs, ho', hn' =>
                    simp only at h
                    cases hpair : pairNodes m n with
                    | none =>
                        rw [sharedRows_eq_nil hne (by
                          simp only [Option.bind_some, ho', hn']
                          rintro m' n' ⟨⟩ ⟨⟩
                          exact hpair)]
                        rw [hpair] at h
                        obtain ⟨removed, hremoved, h⟩ :=
                          Except.bind_eq_ok_iff.mp h
                        obtain ⟨added, hadded, hpatch⟩ :=
                          Except.bind_eq_ok_iff.mp h
                        cases hpatch
                        rw [walkLeaves_eq_ok hadded]
                        exact keeps_of_collectLeafPaths hremoved _
                    | some pairs =>
                        rw [sharedRows, if_neg hne]
                        simp only [Option.bind_some, ho', hn', hpair,
                          Option.getD_some]
                        rw [hpair] at h
                        obtain ⟨parts, hparts, hpatch⟩ :=
                          Except.bind_eq_ok_iff.mp h
                        cases hpatch
                        refine keeps_of_pairNodes hpair ?_
                        refine forall₂_of_mapM_eq_ok hparts ?_
                        intro e he part hpart
                        exact ih hpart (hpairs m n pairs rfl rfl hpair e he)

theorem diffRecursive_leads {store : ObjectStore Id}
    {patch : RowPatch String String}
    (h : diffRecursive text store levels old new path = .ok patch)
    (hfinds : diffFinds store levels old new = true) :
    patch.Leads (leavesAt (leafRow text) levels old path)
      (leavesAt atomPath levels old path)
      (leavesAt (leafRow text) levels new path) :=
  (diffRecursive_keeps h hfinds).leads

end Leads

/-! ## Whole trees -/

section Whole

variable (text : TextTables)

/-- The rows of the tree an id names. -/
noncomputable def treeLeaves (root : Id) : List (String × String) :=
  leavesAt (leafRow text) (LIST_PATHS_HARD_CEILING + 1) (some root) ""

/-- The paths of its atoms. -/
noncomputable def treeAtomPaths (root : Id) : List String :=
  leavesAt atomPath (LIST_PATHS_HARD_CEILING + 1) (some root) ""

variable {text}

/-- The difference between two trees can be trusted: it finds every id it
looks up, and no two atoms of the old tree are at one path. -/
structure DiffSound (store : ObjectStore Id) (old new : Id) : Prop where
  finds : diffFinds store (LIST_PATHS_HARD_CEILING + 1) (some old)
    (some new) = true
  paths : (treeAtomPaths old).Nodup

variable {store : ObjectStore Id}

theorem treeCollectLeaves_eq_ok {root : Id} {rows : List (String × String)}
    (h : treeCollectLeaves text store root = .ok rows) :
    rows = treeLeaves text root := by
  obtain ⟨o, ho, hrows⟩ := Except.bind_eq_ok_iff.mp h
  rw [treeLeaves, leavesAt_of_get _ (require_eq_ok_iff.mp ho)]
  exact walkLeaves_eq_ok hrows

theorem treeAtomPaths_eq {root : Id} {o : Object Id} {paths : List String}
    (ho : store.get root = some o)
    (h : walkLeaves atomPath store (LIST_PATHS_HARD_CEILING + 1) o "" =
      .ok paths) : treeAtomPaths root = paths := by
  rw [treeAtomPaths, leavesAt_of_get _ ho]
  exact (walkLeaves_eq_ok h).symm

theorem treeDiffLeaves_apply {old new : Id} {patch : RowPatch String String}
    {rows : List (String × String)}
    (h : treeDiffLeaves text store (some old) new = .ok patch)
    (hsound : DiffSound store old new)
    (hrows : rows.Perm (treeLeaves text old)) :
    (patch.apply rows).Perm (treeLeaves text new) :=
  (diffRecursive_leads h hsound.finds).apply hsound.paths hrows

end Whole

end AgentStateGraph
