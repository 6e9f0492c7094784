import AgentStateGraph.Core.ContentKey
import AgentStateGraph.Core.PathText
import AgentStateGraph.Tree.Hidden
import AgentStateGraph.Tree.Leaves

/-!
# Where the difference of leaves is exact

A leaf stands at a place: the keys and positions from the root to it.  The
difference skips the leaves that both trees have at one place and names the
others by the text of their place.  Two places can have one text, when a key
holds a slash; the difference is exact as long as no skipped leaf has the text
of one that it names.
-/

namespace AgentStateGraph

variable {Id : Type} [Digest Id]

/-! ## Places -/

/-- The child at a key or at a position; a set has its members in order. -/
def Node.child : Node Id → PathComponent → Option Id
  | .map entries, .key k => entries[k]?
  | .list items, .index i | .set items, .index i => items[i]?
  | _, _ => none

omit [Digest Id] in
theorem mem_indexed_iff {items : List Id} {e : String × Id} :
    e ∈ indexed items ↔ ∃ i, e.1 = Nat.repr i ∧ items[i]? = some e.2 := by
  simp only [indexed, List.mem_map, Prod.exists, List.mem_zipIdx_iff_getElem?]
  constructor
  · rintro ⟨id, i, hget, rfl⟩
    exact ⟨i, rfl, hget⟩
  · rintro ⟨i, hlabel, hget⟩
    exact ⟨e.2, i, hget, by rw [← hlabel]⟩

omit [Digest Id] in
/-- The labelled children are those at some component. -/
theorem Node.mem_labelled_iff {n : Node Id} {e : String × Id} :
    e ∈ n.labelled ↔ ∃ c, e.1 = c.label ∧ n.child c = some e.2 := by
  match n with
  | .map entries =>
      change e ∈ entries.toList ↔ _
      rw [Std.ExtTreeMap.mem_toList_iff_getElem?_eq_some (k := e.1) (v := e.2)]
      constructor
      · intro h
        exact ⟨.key e.1, rfl, h⟩
      · rintro ⟨c, hlabel, hchild⟩
        match c, hlabel, hchild with
        | .key k, hlabel, hchild =>
            rw [hlabel]
            exact hchild
  | .list items | .set items =>
      change e ∈ indexed items ↔ _
      rw [mem_indexed_iff]
      constructor
      · rintro ⟨i, hlabel, hget⟩
        exact ⟨.index i, hlabel, hget⟩
      · rintro ⟨c, hlabel, hchild⟩
        match c, hlabel, hchild with
        | .index i, hlabel, hchild => exact ⟨i, hlabel, hchild⟩

/-- The id at a place below an id, in whatever store its objects are. -/
noncomputable def idAtPlace : Option Id → List PathComponent → Option Id
  | root, [] => root
  | root, c :: rest =>
      match root.bind content with
      | some (.node n) => idAtPlace (n.child c) rest
      | _ => none

/-- The tree has the atom at the place, less than so many levels down. -/
structure AtomAt (levels : ℕ) (root : Option Id) (place : List PathComponent)
    (a : Atom) : Prop where
  depth : place.length < levels
  found : (idAtPlace root place).bind content = some (.atom a)

section Places

variable {root : Option Id} {levels : ℕ} {place : List PathComponent} {a : Atom}

variable {n : Node Id} {c : PathComponent}

theorem idAtPlace_cons_of_node (c : PathComponent)
    (h : root.bind content = some (.node n)) :
    idAtPlace root (c :: place) = idAtPlace (n.child c) place := by
  rw [idAtPlace, h]

/-- Only a container has anything below it. -/
theorem exists_node_of_idAtPlace_cons {id : Id}
    (h : idAtPlace root (c :: place) = some id) :
    ∃ n, root.bind content = some (.node n) ∧
      idAtPlace (n.child c) place = some id := by
  rw [idAtPlace] at h
  split at h
  next n hn => exact ⟨n, hn, h⟩
  next => contradiction

@[simp] theorem idAtPlace_none :
    idAtPlace (none : Option Id) place = none := by
  cases place with
  | nil => rfl
  | cons c rest => rfl

theorem AtomAt.exists_id (h : AtomAt levels root place a) :
    ∃ id, idAtPlace root place = some id := by
  obtain ⟨id, hid, -⟩ := Option.bind_eq_some_iff.mp h.found
  exact ⟨id, hid⟩

/-- Nothing stands below what is not there. -/
theorem exists_child_of_idAtPlace {id : Id}
    (h : idAtPlace (n.child c) place = some id) : ∃ x, n.child c = some x := by
  apply Option.ne_none_iff_exists'.mp
  intro hnone
  rw [hnone, idAtPlace_none] at h
  contradiction

theorem AtomAt.exists_child (h : AtomAt levels (n.child c) place a) :
    ∃ x, n.child c = some x := by
  obtain ⟨id, hid⟩ := h.exists_id
  exact exists_child_of_idAtPlace hid

theorem atomAt_of_atom {b : Atom} (h : root.bind content = some (.atom b)) :
    AtomAt (levels + 1) root place a ↔ place = [] ∧ a = b := by
  constructor
  · intro hatom
    match place, hatom with
    | [], hatom =>
        have hfound := hatom.found
        rw [idAtPlace, h] at hfound
        cases hfound
        exact ⟨rfl, rfl⟩
    | c :: rest, hatom =>
        obtain ⟨id, hid⟩ := hatom.exists_id
        obtain ⟨n, hn, -⟩ := exists_node_of_idAtPlace_cons hid
        rw [h] at hn
        cases hn
  · rintro ⟨rfl, rfl⟩
    exact ⟨Nat.succ_pos _, h⟩

theorem atomAt_of_node (h : root.bind content = some (.node n)) :
    AtomAt (levels + 1) root place a ↔
      ∃ c rest, place = c :: rest ∧ AtomAt levels (n.child c) rest a := by
  constructor
  · intro hatom
    match place, hatom with
    | [], hatom =>
        have hfound := hatom.found
        rw [idAtPlace, h] at hfound
        cases hfound
    | c :: rest, hatom =>
        refine ⟨c, rest, rfl, Nat.lt_of_succ_lt_succ hatom.depth, ?_⟩
        rw [← idAtPlace_cons_of_node c h]
        exact hatom.found
  · rintro ⟨c, rest, rfl, hatom⟩
    refine ⟨Nat.succ_lt_succ hatom.depth, ?_⟩
    rw [idAtPlace_cons_of_node c h]
    exact hatom.found

theorem not_atomAt_of_none (h : root.bind content = none) :
    ¬AtomAt levels root place a := by
  intro hatom
  match place, hatom with
  | [], hatom =>
      have hfound := hatom.found
      rw [idAtPlace, h] at hfound
      contradiction
  | c :: rest, hatom =>
      obtain ⟨id, hid⟩ := hatom.exists_id
      obtain ⟨n, hn, -⟩ := exists_node_of_idAtPlace_cons hid
      rw [h] at hn
      contradiction

theorem mem_leavesAt_iff {β : Type} {leaf : Atom → String → List β} {x : β}
    {path : String} :
    x ∈ leavesAt leaf levels root path ↔
      ∃ place a, AtomAt levels root place a ∧
        x ∈ leaf a (leafPath (placeText path place)) := by
  induction levels generalizing root path with
  | zero =>
      rw [leavesAt_zero]
      refine iff_of_false List.not_mem_nil ?_
      rintro ⟨place, a, hatom, -⟩
      exact absurd hatom.depth (Nat.not_lt_zero _)
  | succ levels ih =>
      rw [leavesAt]
      rcases h : root.bind content with _ | b | n
      · refine iff_of_false List.not_mem_nil ?_
        rintro ⟨place, a, hatom, -⟩
        exact not_atomAt_of_none h hatom
      · constructor
        · exact fun hx => ⟨[], b, (atomAt_of_atom h).mpr ⟨rfl, rfl⟩, hx⟩
        · rintro ⟨place, a, hatom, hx⟩
          obtain ⟨rfl, rfl⟩ := (atomAt_of_atom h).mp hatom
          exact hx
      · dsimp only
        rw [leavesOf_node, List.mem_flatMap]
        constructor
        · rintro ⟨e, he, hx⟩
          obtain ⟨c, hlabel, hchild⟩ := Node.mem_labelled_iff.mp he
          obtain ⟨rest, a, hatom, hx⟩ := ih.mp hx
          rw [← hchild] at hatom
          refine ⟨c :: rest, a, (atomAt_of_node h).mpr
            ⟨c, rest, rfl, hatom⟩, ?_⟩
          rwa [placeText, ← hlabel]
        · rintro ⟨place, a, hatom, hx⟩
          obtain ⟨c, rest, rfl, hbelow⟩ := (atomAt_of_node h).mp hatom
          obtain ⟨child, hchild⟩ := hbelow.exists_child
          rw [hchild] at hbelow
          exact ⟨(c.label, child),
            Node.mem_labelled_iff.mpr ⟨c, rfl, hchild⟩,
            ih.mpr ⟨rest, a, hbelow, hx⟩⟩

end Places

/-! ## Containers side by side -/

section Pairs

variable {m n : Node Id} {pairs : List (String × Option Id × Option Id)}

omit [Digest Id] in
/-- A pair is of the children at one component. -/
theorem exists_of_mem_pairNodes (h : pairNodes m n = some pairs)
    {e : String × Option Id × Option Id} (he : e ∈ pairs) :
    ∃ c, e = (c.label, m.child c, n.child c) := by
  match m, n, h with
  | .map old, .map new, h =>
      cases h
      obtain ⟨k, -, rfl⟩ := List.mem_map.mp he
      exact ⟨.key k, rfl⟩
  | .list old, .list new, h | .list old, .set new, h
  | .set old, .list new, h | .set old, .set new, h =>
      cases h
      obtain ⟨i, -, rfl⟩ := List.mem_map.mp he
      exact ⟨.index i, rfl⟩

omit [Digest Id] in
/-- Where the old container has a child, there is a pair. -/
theorem mem_pairNodes (h : pairNodes m n = some pairs) {c : PathComponent}
    {id : Id} (hc : m.child c = some id) :
    (c.label, m.child c, n.child c) ∈ pairs := by
  match m, n, h with
  | .map old, .map new, h =>
      cases h
      match c, hc with
      | .key k, hc =>
          have hold : old[k]? = some id := hc
          refine List.mem_map.mpr ⟨k, KeyedMap.mem_allKeys.mpr ⟨old, by simp, ?_⟩, rfl⟩
          rw [hold]
          exact Option.some_ne_none _
  | .list old, .list new, h | .list old, .set new, h
  | .set old, .list new, h | .set old, .set new, h =>
      cases h
      match c, hc with
      | .index i, hc =>
          have hold : old[i]? = some id := hc
          obtain ⟨hlt, -⟩ := List.getElem?_eq_some_iff.mp hold
          exact List.mem_map.mpr
            ⟨i, List.mem_range.mpr (lt_max_of_lt_left hlt), rfl⟩

omit [Digest Id] in
/-- Containers that have children at one component are of one kind. -/
theorem exists_pairNodes {c : PathComponent} {x y : Id}
    (hm : m.child c = some x) (hn : n.child c = some y) :
    ∃ pairs, pairNodes m n = some pairs := by
  match m, n, c, hm, hn with
  | .map _, .map _, .key _, _, _ => exact ⟨_, rfl⟩
  | .list _, .list _, .index _, _, _ | .list _, .set _, .index _, _, _
  | .set _, .list _, .index _, _, _ | .set _, .set _, .index _, _, _ =>
      exact ⟨_, rfl⟩

end Pairs

/-! ## What the difference keeps and what it names -/

section Exact

variable {text : TextTables} {levels : ℕ} {old new : Option Id} {path : String}

theorem mem_sharedRows_iff {r : String × String} :
    r ∈ sharedRows text levels old new path ↔
      ∃ place a, AtomAt levels old place a ∧
        idAtPlace new place = idAtPlace old place ∧
        r ∈ leafRow text a (leafPath (placeText path place)) := by
  induction levels generalizing old new path with
  | zero =>
      refine iff_of_false List.not_mem_nil ?_
      rintro ⟨place, a, hatom, -⟩
      exact absurd hatom.depth (Nat.not_lt_zero _)
  | succ levels ih =>
      by_cases hne : old = new
      · subst hne
        rw [sharedRows, if_pos rfl, mem_leavesAt_iff]
        simp
      · constructor
        · intro hr
          rw [sharedRows, if_neg hne] at hr
          split at hr
          next m n hm hn =>
            obtain ⟨e, he, hr⟩ := List.mem_flatMap.mp hr
            cases hpairs : pairNodes m n with
            | none => simp [hpairs] at he
            | some pairs =>
                rw [hpairs, Option.getD_some] at he
                obtain ⟨c, rfl⟩ := exists_of_mem_pairNodes hpairs he
                obtain ⟨rest, a, hatom, hsame, hr⟩ := ih.mp hr
                refine ⟨c :: rest, a,
                  (atomAt_of_node hm).mpr ⟨c, rest, rfl, hatom⟩, ?_, hr⟩
                rw [idAtPlace_cons_of_node c hm, idAtPlace_cons_of_node c hn]
                exact hsame
          next => simp at hr
        · rintro ⟨place, a, hatom, hsame, hr⟩
          cases place with
          | nil => exact absurd hsame.symm hne
          | cons c rest =>
              obtain ⟨id, hid⟩ := hatom.exists_id
              obtain ⟨m, hm, -⟩ := exists_node_of_idAtPlace_cons hid
              obtain ⟨n, hn, hbelow⟩ :=
                exists_node_of_idAtPlace_cons (hsame.trans hid)
              obtain ⟨c', rest', hcons, hatom⟩ := (atomAt_of_node hm).mp hatom
              cases hcons
              rw [idAtPlace_cons_of_node c hm,
                idAtPlace_cons_of_node c hn] at hsame
              obtain ⟨x, hx⟩ := hatom.exists_child
              obtain ⟨y, hy⟩ := exists_child_of_idAtPlace hbelow
              obtain ⟨pairs, hpairs⟩ := exists_pairNodes hx hy
              rw [sharedRows, if_neg hne, hm, hn]
              dsimp only
              rw [hpairs, Option.getD_some]
              exact List.mem_flatMap.mpr ⟨_, mem_pairNodes hpairs hx,
                ih.mpr ⟨rest, a, hatom, hsame, hr⟩⟩

variable {p : String}

theorem mem_leafRowPath_iff {a : Atom} {shown : String} :
    p ∈ leafRowPath text a shown ↔
      (atomValueString text a).isSome ∧ p = shown := by
  unfold leafRowPath
  split
  next h => simp [h]
  next h => simp [h]

theorem mem_flatMap_removed_iff {α : Type} {l : List α}
    {parts : List (RowPatch String String)} {P : α → Prop}
    (h : List.Forall₂ (fun e part => p ∈ part.removed ↔ P e) l parts) :
    p ∈ (RowPatch.flatten parts).removed ↔ ∃ e ∈ l, P e := by
  induction h with
  | nil => simp [RowPatch.flatten]
  | @cons e part l parts hpart _ ih =>
      have hsplit : p ∈ (RowPatch.flatten (part :: parts)).removed ↔
          p ∈ part.removed ∨ p ∈ (RowPatch.flatten parts).removed := by
        simp [RowPatch.flatten]
      rw [hsplit, hpart, ih]
      simp

/-- An old leaf that goes or changes, with the text of its place: it had a
row, or the new tree has something at its place. -/
structure Changes (text : TextTables) (levels : ℕ) (old new : Option Id)
    (place : List PathComponent) (a : Atom) : Prop where
  atom : AtomAt levels old place a
  differs : idAtPlace new place ≠ idAtPlace old place
  named : (atomValueString text a).isSome ∨ (idAtPlace new place).isSome

theorem mem_collected_iff {store : ObjectStore Id} {o : Object Id}
    {removed : List String}
    (h : collectLeafPaths text store levels o path = .ok removed)
    (hold : old.bind content = some o)
    (hnone : ∀ place a, AtomAt levels old place a →
      idAtPlace new place = none) :
    p ∈ removed ↔ ∃ place a, Changes text levels old new place a ∧
      p = leafPath (placeText path place) := by
  have hleaves : removed = leavesAt (leafRowPath text) levels old path := by
    rw [walkLeaves_eq_ok h, leavesAt, hold]
  rw [hleaves, mem_leavesAt_iff]
  constructor
  · rintro ⟨place, a, hatom, hp⟩
    obtain ⟨htext, hp⟩ := mem_leafRowPath_iff.mp hp
    refine ⟨place, a, ⟨hatom, ?_, Or.inl htext⟩, hp⟩
    obtain ⟨id, hid⟩ := hatom.exists_id
    rw [hnone place a hatom, hid]
    exact (Option.some_ne_none id).symm
  · rintro ⟨place, a, hchange, hp⟩
    refine ⟨place, a, hchange.atom, mem_leafRowPath_iff.mpr ⟨?_, hp⟩⟩
    refine hchange.named.resolve_right ?_
    rw [hnone place a hchange.atom]
    exact Bool.false_ne_true

theorem mem_atomPath_iff {x : Atom} {b : Id}
    (hold : old.bind content = some (.atom x)) (hne : old ≠ some b) :
    p ∈ [leafPath path] ↔
      ∃ place a, Changes text (levels + 1) old (some b) place a ∧
        p = leafPath (placeText path place) := by
  rw [List.mem_singleton]
  constructor
  · intro hp
    exact ⟨[], x, ⟨(atomAt_of_atom hold).mpr ⟨rfl, rfl⟩, hne.symm,
      Or.inr rfl⟩, hp⟩
  · rintro ⟨place, a, hchange, hp⟩
    obtain ⟨rfl, -⟩ := (atomAt_of_atom hold).mp hchange.atom
    exact hp

theorem idAtPlace_eq_none_of_unpaired {m : Node Id} {place : List PathComponent}
    {a : Atom} (hold : old.bind content = some (.node m))
    (hnew : ∀ n, new.bind content = some (.node n) → pairNodes m n = none)
    (hatom : AtomAt (levels + 1) old place a) :
    idAtPlace new place = none := by
  obtain ⟨c, rest, rfl, hbelow⟩ := (atomAt_of_node hold).mp hatom
  by_contra hsome
  obtain ⟨id, hid⟩ := Option.ne_none_iff_exists'.mp hsome
  obtain ⟨n, hn, hid⟩ := exists_node_of_idAtPlace_cons hid
  obtain ⟨x, hx⟩ := hbelow.exists_child
  obtain ⟨y, hy⟩ := exists_child_of_idAtPlace hid
  obtain ⟨pairs, hpairs⟩ := exists_pairNodes hx hy
  rw [hnew n hn] at hpairs
  contradiction

theorem changes_node_iff {m n : Node Id}
    {pairs : List (String × Option Id × Option Id)}
    (hold : old.bind content = some (.node m))
    (hnew : new.bind content = some (.node n))
    (hpairs : pairNodes m n = some pairs) :
    (∃ place a, Changes text (levels + 1) old new place a ∧
        p = leafPath (placeText path place)) ↔
      ∃ e ∈ pairs, ∃ place a, Changes text levels e.2.1 e.2.2 place a ∧
        p = leafPath (placeText (path ++ "/" ++ e.1) place) := by
  constructor
  · rintro ⟨place, a, ⟨hatom, hdiffers, hnamed⟩, hp⟩
    obtain ⟨c, rest, rfl, hbelow⟩ := (atomAt_of_node hold).mp hatom
    rw [idAtPlace_cons_of_node c hold, idAtPlace_cons_of_node c hnew]
      at hdiffers
    rw [idAtPlace_cons_of_node c hnew] at hnamed
    obtain ⟨x, hx⟩ := hbelow.exists_child
    exact ⟨_, mem_pairNodes hpairs hx, rest, a, ⟨hbelow, hdiffers, hnamed⟩, hp⟩
  · rintro ⟨e, he, rest, a, ⟨hbelow, hdiffers, hnamed⟩, hp⟩
    obtain ⟨c, rfl⟩ := exists_of_mem_pairNodes hpairs he
    refine ⟨c :: rest, a, ⟨(atomAt_of_node hold).mpr ⟨c, rest, rfl, hbelow⟩,
      ?_, ?_⟩, hp⟩
    · rw [idAtPlace_cons_of_node c hold, idAtPlace_cons_of_node c hnew]
      exact hdiffers
    · rw [idAtPlace_cons_of_node c hnew]
      exact hnamed

theorem mem_removed_iff {store : ObjectStore Id}
    {patch : RowPatch String String}
    (h : diffRecursive text store levels old new path = .ok patch)
    (hfinds : diffFinds store levels old new = true) :
    p ∈ patch.removed ↔ ∃ place a, Changes text levels old new place a ∧
      p = leafPath (placeText path place) := by
  induction levels generalizing old new path patch with
  | zero =>
      cases h
      refine iff_of_false List.not_mem_nil ?_
      rintro ⟨place, a, hchange, -⟩
      exact absurd hchange.atom.depth (Nat.not_lt_zero _)
  | succ levels ih =>
      by_cases hne : old = new
      · rw [diffRecursive, if_pos hne] at h
        cases h
        subst hne
        refine iff_of_false List.not_mem_nil ?_
        rintro ⟨place, a, hchange, -⟩
        exact hchange.differs rfl
      · obtain ⟨hold, hnew, hpairs⟩ := diffFinds_succ hfinds hne
        rw [diffRecursive, if_neg hne] at h
        cases old with
        | none =>
            cases new with
            | none => exact absurd rfl hne
            | some b =>
                obtain ⟨n, hn⟩ := hnew b rfl
                simp only [Option.bind_none, Option.bind_some, hn] at h
                obtain ⟨added, -, hpatch⟩ := Except.bind_eq_ok_iff.mp h
                cases hpatch
                refine iff_of_false List.not_mem_nil ?_
                rintro ⟨place, a, hchange, -⟩
                exact not_atomAt_of_none rfl hchange.atom
        | some x =>
            obtain ⟨o, ho⟩ := hold x rfl
            cases new with
            | none =>
                simp only [Option.bind_none, Option.bind_some, ho] at h
                obtain ⟨removed, hremoved, hpatch⟩ :=
                  Except.bind_eq_ok_iff.mp h
                cases hpatch
                exact mem_collected_iff hremoved (content_of_get ho)
                  fun _ _ _ => idAtPlace_none
            | some b =>
                obtain ⟨n, hn⟩ := hnew b rfl
                have ho' : (some x).bind content = some o := content_of_get ho
                have hn' : (some b).bind content = some n := content_of_get hn
                simp only [Option.bind_some, ho, hn] at h hpairs
                cases o with
                | atom y =>
                    cases n with
                    | atom z =>
                        cases h
                        exact mem_atomPath_iff ho' hne
                    | node n =>
                        obtain ⟨added, -, hpatch⟩ :=
                          Except.bind_eq_ok_iff.mp h
                        cases hpatch
                        exact mem_atomPath_iff ho' hne
                | node m =>
                    cases n with
                    | atom z =>
                        obtain ⟨removed, hremoved, hpatch⟩ :=
                          Except.bind_eq_ok_iff.mp h
                        cases hpatch
                        refine mem_collected_iff hremoved ho'
                          fun _ _ hatom =>
                            idAtPlace_eq_none_of_unpaired ho' ?_ hatom
                        intro n hn
                        rw [hn'] at hn
                        cases hn
                    | node n =>
                        simp only at h
                        cases hpair : pairNodes m n with
                        | none =>
                            rw [hpair] at h
                            obtain ⟨removed, hremoved, h⟩ :=
                              Except.bind_eq_ok_iff.mp h
                            obtain ⟨added, -, hpatch⟩ :=
                              Except.bind_eq_ok_iff.mp h
                            cases hpatch
                            refine mem_collected_iff hremoved ho'
                              fun _ _ hatom =>
                                idAtPlace_eq_none_of_unpaired ho' ?_ hatom
                            intro n' hn''
                            rw [hn'] at hn''
                            cases hn''
                            exact hpair
                        | some pairs =>
                            rw [hpair] at h
                            obtain ⟨parts, hparts, hpatch⟩ :=
                              Except.bind_eq_ok_iff.mp h
                            cases hpatch
                            rw [changes_node_iff ho' hn' hpair]
                            refine mem_flatMap_removed_iff
                              (forall₂_of_mapM_eq_ok hparts ?_)
                            intro e he part hpart
                            exact ih hpart (hpairs m n pairs rfl rfl hpair e he)

end Exact

/-! ## Whole trees -/

section Whole

variable {text : TextTables} {store : ObjectStore Id}

variable {n : Node Id} {root : Option Id}

omit [Digest Id] in
theorem Node.mem_childIds_of_labelled {e : String × Id} (h : e ∈ n.labelled) :
    e.2 ∈ (Object.node n).childIds := by
  match n with
  | .map entries => exact mem_childIds_of_mem_toList h
  | .list items | .set items => exact mem_of_mem_indexed h

omit [Digest Id] in
theorem Node.mem_childIds_of_child {c : PathComponent} {id : Id}
    (h : n.child c = some id) : id ∈ (Object.node n).childIds :=
  Node.mem_childIds_of_labelled (e := (c.label, id))
    (Node.mem_labelled_iff.mpr ⟨c, rfl, h⟩)

theorem exists_walkLeaves {β : Type} (leaf : Atom → String → List β)
    (levels : ℕ) {o : Object Id} (h : CompleteBelow store o) (path : String) :
    ∃ found, walkLeaves leaf store levels o path = .ok found := by
  induction levels generalizing o path with
  | zero => exact ⟨[], rfl⟩
  | succ levels ih =>
      match o with
      | .atom a => exact ⟨leaf a (leafPath path), rfl⟩
      | .node n =>
          obtain ⟨parts, hparts, -⟩ := Except.exists_mapM_ok (l := n.labelled)
            (f := fun e => do
              let child ← store.require e.2
              walkLeaves leaf store levels child (path ++ "/" ++ e.1))
            (by
              intro e he
              obtain ⟨child, hchild, -, hbelow⟩ :=
                exists_require (h _ (Node.mem_childIds_of_labelled he))
              obtain ⟨found, hfound⟩ := ih hbelow (path ++ "/" ++ e.1)
              exact ⟨found, by rw [hchild, Except.ok_bind, hfound]⟩)
          exact ⟨parts.flatten, by
            simp only [walkLeaves, hparts, Except.ok_bind]⟩

/-- Every object of the tree is stored, if there is a tree. -/
def CompleteRoot (store : ObjectStore Id) (root : Option Id) : Prop :=
  ∀ id, root = some id → store.Complete id

theorem CompleteRoot.child (h : CompleteRoot store root)
    (hroot : root.bind store.get = some (.node n)) (c : PathComponent) :
    CompleteRoot store (n.child c) := by
  obtain ⟨id, rfl, hget⟩ := Option.bind_eq_some_iff.mp hroot
  exact fun x hx => (h id rfl).child hget (Node.mem_childIds_of_child hx)

theorem CompleteRoot.below (h : CompleteRoot store root) {o : Object Id}
    (hroot : root.bind store.get = some o) : CompleteBelow store o := by
  obtain ⟨id, rfl, hget⟩ := Option.bind_eq_some_iff.mp hroot
  exact completeBelow_of_get (h id rfl) hget

theorem CompleteRoot.all_stored (h : CompleteRoot store root) :
    root.all (fun id => (store.get id).isSome) = true := by
  cases root with
  | none => rfl
  | some id =>
      obtain ⟨o, ho⟩ := (h id rfl).exists_get
      simp [ho]

theorem diffFinds_of_complete {levels : ℕ} {old new : Option Id}
    (hold : CompleteRoot store old) (hnew : CompleteRoot store new) :
    diffFinds store levels old new = true := by
  induction levels generalizing old new with
  | zero => rfl
  | succ levels ih =>
      rw [diffFinds]
      split
      · rfl
      · rw [hold.all_stored, hnew.all_stored, Bool.true_and, Bool.true_and]
        split
        next m n hm hn =>
          simp only [Option.all_eq_true, List.all_eq_true]
          intro pairs hpairs e he
          obtain ⟨c, rfl⟩ := exists_of_mem_pairNodes hpairs he
          exact ih (hold.child hm c) (hnew.child hn c)
        next => rfl

/-- Between trees that are stored in full, the difference succeeds. -/
theorem exists_diffRecursive (levels : ℕ) {old new : Option Id}
    (hold : CompleteRoot store old) (hnew : CompleteRoot store new)
    (path : String) :
    ∃ patch, diffRecursive text store levels old new path = .ok patch := by
  induction levels generalizing old new path with
  | zero => exact ⟨_, rfl⟩
  | succ levels ih =>
      rw [diffRecursive]
      split
      · exact ⟨_, rfl⟩
      have hpaths : ∀ o, old.bind store.get = some o →
          ∃ removed, collectLeafPaths text store (levels + 1) o path =
            .ok removed :=
        fun o ho => exists_walkLeaves _ _ (hold.below ho) path
      have hleaves : ∀ n, new.bind store.get = some n →
          ∃ added, collectLeaves text store (levels + 1) n path = .ok added :=
        fun n hn => exists_walkLeaves _ _ (hnew.below hn) path
      split
      · exact ⟨_, rfl⟩
      next o ho _ =>
        obtain ⟨removed, hremoved⟩ := hpaths o ho
        exact ⟨_, by rw [hremoved, Except.ok_bind]⟩
      next n _ hn =>
        obtain ⟨added, hadded⟩ := hleaves n hn
        exact ⟨_, by rw [hadded, Except.ok_bind]⟩
      · exact ⟨_, rfl⟩
      next m b hm _ =>
        obtain ⟨removed, hremoved⟩ := hpaths _ hm
        exact ⟨_, by rw [hremoved, Except.ok_bind]⟩
      next a n _ hn =>
        obtain ⟨added, hadded⟩ := hleaves _ hn
        exact ⟨_, by rw [hadded, Except.ok_bind]⟩
      next m n hm hn =>
        split
        next pairs hpairs =>
          obtain ⟨parts, hparts, -⟩ := Except.exists_mapM_ok (l := pairs)
            (f := fun e => diffRecursive text store levels e.2.1 e.2.2
              (path ++ "/" ++ e.1))
            (by
              intro e he
              obtain ⟨c, rfl⟩ := exists_of_mem_pairNodes hpairs he
              exact ih (hold.child hm c) (hnew.child hn c) _)
          exact ⟨_, by rw [hparts, Except.ok_bind]⟩
        next =>
          obtain ⟨removed, hremoved⟩ := hpaths _ hm
          obtain ⟨added, hadded⟩ := hleaves _ hn
          exact ⟨_, by
            rw [replaceLeaves, hremoved, Except.ok_bind, hadded,
              Except.ok_bind]⟩

/-- Two leaves of the old tree are told apart: one that stays and has a row,
and one that the difference names. -/
def LeavesApart (text : TextTables) (old new : Id) : Prop :=
  ∀ place a place' a',
    AtomAt (LIST_PATHS_HARD_CEILING + 1) (some old) place a →
    idAtPlace (some new) place = idAtPlace (some old) place →
    (atomValueString text a).isSome →
    Changes text (LIST_PATHS_HARD_CEILING + 1) (some old) (some new) place'
      a' →
    leafPath (placeText "" place) ≠ leafPath (placeText "" place')

/-- Between two stored trees the leaves and their difference are found, and
the difference makes the rows of the old tree those of the new one exactly
when no leaf that stays has the path of one that goes or changes. -/
theorem treeDiffLeaves_exact_iff (text : TextTables) (store : ObjectStore Id)
    {old new : Id} (hold : store.Complete old) (hnew : store.Complete new) :
    ∃ rows rows' patch, treeCollectLeaves text store old = .ok rows ∧
      treeCollectLeaves text store new = .ok rows' ∧
      treeDiffLeaves text store (some old) new = .ok patch ∧
      ((patch.apply rows).Perm rows' ↔ LeavesApart text old new) := by
  have hcollect : ∀ {root : Id}, store.Complete root →
      ∃ rows, treeCollectLeaves text store root = .ok rows := by
    intro root h
    obtain ⟨o, ho, -, hbelow⟩ := exists_require h
    obtain ⟨rows, hrows⟩ := exists_walkLeaves (leafRow text)
      (LIST_PATHS_HARD_CEILING + 1) hbelow ""
    exact ⟨rows, by
      rw [treeCollectLeaves, ho, Except.ok_bind, collectLeaves, hrows]⟩
  have hold' : CompleteRoot store (some old) := by
    rintro id ⟨⟩
    exact hold
  have hnew' : CompleteRoot store (some new) := by
    rintro id ⟨⟩
    exact hnew
  obtain ⟨rows, hrows⟩ := hcollect hold
  obtain ⟨rows', hrows'⟩ := hcollect hnew
  obtain ⟨patch, hpatch⟩ := exists_diffRecursive
    (LIST_PATHS_HARD_CEILING + 1) hold' hnew' ""
  have hfinds : diffFinds store (LIST_PATHS_HARD_CEILING + 1) (some old)
      (some new) = true := diffFinds_of_complete hold' hnew'
  refine ⟨rows, rows', patch, hrows, hrows', hpatch, ?_⟩
  rw [treeCollectLeaves_eq_ok hrows, treeCollectLeaves_eq_ok hrows']
  have hiff := (diffRecursive_keeps hpatch hfinds).apply_perm_iff
    (.refl (treeLeaves text old))
  refine hiff.trans ?_
  constructor
  · intro hfree place a place' a' hatom hsame htext hchange heq
    obtain ⟨value, hvalue⟩ := Option.isSome_iff_exists.mp htext
    refine hfree (leafPath (placeText "" place), value)
      (mem_sharedRows_iff.mpr ⟨place, a, hatom, hsame, ?_⟩)
      ((mem_removed_iff hpatch hfinds).mpr ⟨place', a', hchange, heq⟩)
    rw [leafRow, hvalue]
    exact List.mem_singleton_self _
  · intro hapart r hr hmem
    obtain ⟨place, a, hatom, hsame, hr⟩ := mem_sharedRows_iff.mp hr
    obtain ⟨place', a', hchange, hp⟩ :=
      (mem_removed_iff hpatch hfinds).mp hmem
    obtain ⟨htext, hfst⟩ := mem_leafRowPath_iff.mp
      (fst_mem_leafRowPath a _ r hr)
    exact hapart place a place' a' hatom hsame htext hchange
      (hfst.symm.trans hp)

end Whole

namespace SlashKeys

open ContentKey

def tables : TextTables where
  toLowercase s := s
  f64ToString _ := ""

def inner : Object ContentKey := mapOf [("b", .string "inner")]

/-- The key `a/b` beside a key `b` below a key `a`. -/
def tree (value : String) : Object ContentKey :=
  mapOf [("a", inner), ("a/b", .string value)]

def objects : ObjectStore ContentKey :=
  AddressedMap.empty.putAll [.string "inner", .string "first",
    .string "second", inner, tree "first", tree "second"]

end SlashKeys

open SlashKeys in
set_option maxRecDepth 16384 in
theorem treeDiffLeaves_exact_of_slash_keys :
    objects.Complete (tree "first").id ∧ objects.Complete (tree "second").id ∧
    ∃ rows rows' patch,
      treeCollectLeaves tables objects (tree "first").id = .ok rows ∧
      treeCollectLeaves tables objects (tree "second").id = .ok rows' ∧
      treeDiffLeaves tables objects (some (tree "first").id)
        (tree "second").id = .ok patch ∧
      ((patch.apply rows).Perm rows' ↔
        LeavesApart tables (tree "first").id (tree "second").id) := by
  have hclosed : objects.isClosed = true := by decide
  have hold : objects.Complete (tree "first").id :=
    ObjectStore.complete_of_isClosed hclosed (by decide)
  have hnew : objects.Complete (tree "second").id :=
    ObjectStore.complete_of_isClosed hclosed (by decide)
  exact ⟨hold, hnew, treeDiffLeaves_exact_iff tables objects hold hnew⟩

open SlashKeys in
set_option maxRecDepth 16384 in
/-- A change at the key `a/b` takes the row of the leaf `b` below `a` away. -/
theorem treeDiffLeaves_drops_shared_path :
    treeCollectLeaves tables objects (tree "first").id =
        .ok [("/a/b", "inner"), ("/a/b", "first")] ∧
      treeCollectLeaves tables objects (tree "second").id =
        .ok [("/a/b", "inner"), ("/a/b", "second")] ∧
      treeDiffLeaves tables objects (some (tree "first").id)
        (tree "second").id = .ok ⟨["/a/b"], [("/a/b", "second")]⟩ ∧
      ¬((⟨["/a/b"], [("/a/b", "second")]⟩ : RowPatch String String).apply
        [("/a/b", "inner"), ("/a/b", "first")]).Perm
        [("/a/b", "inner"), ("/a/b", "second")] := by
  refine ⟨by decide, by decide, by decide, by decide⟩

end AgentStateGraph
