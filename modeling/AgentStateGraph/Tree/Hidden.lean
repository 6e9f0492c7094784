import AgentStateGraph.Tree.Read

/-!
# Reads of trees that differ at one place

Two trees can agree everywhere but at one key path.  A read that stays clear
of that place, or stops before it, returns the same on both.
-/

namespace AgentStateGraph

open AddressedMap

variable {Id : Type} [Digest Id] {s t : ObjectStore Id}

/-! ## Trees stored in full -/

/-- Every object below is stored. -/
def CompleteBelow (s : ObjectStore Id) (o : Object Id) : Prop :=
  ∀ c ∈ o.childIds, s.Complete c

section

variable {id : Id} {o : Object Id} {entries : BTreeMap String Id}
  {names : List String} {l l' : List (String × Id)}

theorem exists_require (h : s.Complete id) :
    ∃ o, s.require id = .ok o ∧ o.id = id ∧ CompleteBelow s o := by
  obtain ⟨o, ho⟩ := h.exists_get
  refine ⟨o, require_eq_ok_iff.mpr ho, ObjectStore.id_eq_of_get ho, ?_⟩
  intro c hc
  exact h.child ho hc

/-- One id names one object, whichever store it is read from. -/
theorem exists_require_both (hs : s.Complete id) (ht : t.Complete id) :
    ∃ o, s.require id = .ok o ∧ t.require id = .ok o ∧
      CompleteBelow s o ∧ CompleteBelow t o := by
  obtain ⟨o, ho, hid, hbelow⟩ := exists_require hs
  obtain ⟨o', ho', hid', hbelow'⟩ := exists_require ht
  have heq : o = o' := Object.id_injective (hid.trans hid'.symm)
  subst heq
  exact ⟨o, ho, ho', hbelow, hbelow'⟩

theorem completeBelow_of_get (h : s.Complete id) (hget : s.get id = some o) :
    CompleteBelow s o :=
  fun _ hc => h.child hget hc

omit [Digest Id] in
theorem mem_childIds_of_childIdAt {c : PathComponent}
    (h : childIdAt o c = some id) : id ∈ o.childIds := by
  match o, c with
  | .node (.map entries), .key key => exact Object.mem_childIds_of_getElem? h
  | .node (.list items), .index idx => exact List.mem_of_getElem? h
  | .node (.map _), .index _ => simp [childIdAt] at h
  | .node (.list _), .key _ => simp [childIdAt] at h
  | .node (.set _), _ => simp [childIdAt] at h
  | .atom _, _ => simp [childIdAt] at h

/-! ## Trees that differ at one key path -/

/-- Two objects are maps that differ only in what stands at the key path: the
same keys on the way, the same children beside it, and something at its end
on both sides. -/
inductive DifferOnlyAt (s t : ObjectStore Id) :
    List String → Object Id → Object Id → Prop
  | here (o o' : Object Id) : DifferOnlyAt s t [] o o'
  | inside {name : String} {names : List String}
      {entries entries' : BTreeMap String Id} {i i' : Id} {o o' : Object Id}
      (others : ∀ key, key ≠ name → entries[key]? = entries'[key]?)
      (left : entries[name]? = some i) (right : entries'[name]? = some i')
      (leftObject : s.get i = some o) (rightObject : t.get i' = some o')
      (rest : DifferOnlyAt s t names o o') :
      DifferOnlyAt s t (name :: names) (Object.map entries)
        (Object.map entries')

/-- Two children a walk reads side by side: the same one, or the two at the
name the trees differ below. -/
def ChildrenAlike (s t : ObjectStore Id) (name : String) (names : List String)
    (x y : String × Id) : Prop :=
  x.1 = y.1 ∧ ∃ c c', s.require x.2 = .ok c ∧ t.require y.2 = .ok c' ∧
    CompleteBelow s c ∧ CompleteBelow t c' ∧
    (c = c' ∨ x.1 = name ∧ DifferOnlyAt s t names c c')

/-- A child both trees have. -/
def ChildShared (s t : ObjectStore Id) (id id' : Id) : Prop :=
  id = id' ∧ ∃ c, s.require id = .ok c ∧ t.require id = .ok c ∧
    CompleteBelow s c ∧ CompleteBelow t c

theorem childShared_of_mem (hs : CompleteBelow s o) (ht : CompleteBelow t o)
    (h : id ∈ o.childIds) : ChildShared s t id id := by
  obtain ⟨c, hc⟩ := exists_require_both (hs id h) (ht id h)
  exact ⟨rfl, c, hc⟩

theorem forall₂_shared_labelled (hs : CompleteBelow s o)
    (ht : CompleteBelow t o) {children : List (String × Id)}
    (h : ∀ e ∈ children, e.2 ∈ o.childIds) :
    List.Forall₂ (fun x y => x.1 = y.1 ∧ ChildShared s t x.2 y.2)
      children children :=
  List.forall₂_same.mpr fun e he => ⟨rfl, childShared_of_mem hs ht (h e he)⟩

omit [Digest Id] in
theorem mem_childIds_of_mem_toList {e : String × Id} (h : e ∈ entries.toList) :
    e.2 ∈ (Object.node (.map entries) : Object Id).childIds :=
  List.mem_map_of_mem h

omit [Digest Id] in
theorem mem_of_mem_indexed {items : List Id} {e : String × Id}
    (h : e ∈ indexed items) : e.2 ∈ items := by
  obtain ⟨⟨id, i⟩, hmem, rfl⟩ := List.mem_map.mp h
  exact (List.mem_zipIdx' hmem).2 ▸ List.getElem_mem _

theorem forall₂_childrenAlike {name : String} {entries' : BTreeMap String Id}
    (h : DifferOnlyAt s t (name :: names) (Object.map entries)
      (Object.map entries')) (hs : CompleteBelow s (Object.map entries))
    (ht : CompleteBelow t (Object.map entries')) :
    List.Forall₂ (ChildrenAlike s t name names) entries.toList
      entries'.toList := by
  cases h with
  | @inside _ _ _ _ i i' o o' others left right leftObject rightObject rest =>
    have hkeys : ∀ key : String, entries[key]? = none ↔ entries'[key]? = none := by
      intro key
      by_cases hkey : key = name
      · subst hkey
        simp [left, right]
      · rw [others key hkey]
    refine (KeyedMap.forall₂_toList hkeys).imp ?_
    rintro ⟨k, id⟩ ⟨k', id'⟩ ⟨hk, hid, hid'⟩
    have hmem := Object.mem_childIds_of_getElem? hid
    have hmem' := Object.mem_childIds_of_getElem? hid'
    refine ⟨hk, ?_⟩
    by_cases hname : k = name
    · obtain rfl : id = i := by
        rw [hname, left] at hid
        exact (Option.some.inj hid).symm
      obtain rfl : id' = i' := by
        rw [hname, right] at hid'
        exact (Option.some.inj hid').symm
      obtain ⟨c, hc, -, hbelow⟩ := exists_require (hs id hmem)
      obtain ⟨c', hc', -, hbelow'⟩ := exists_require (ht id' hmem')
      have hco : c = o :=
        Option.some.inj ((require_eq_ok_iff.mp hc).symm.trans leftObject)
      have hco' : c' = o' :=
        Option.some.inj ((require_eq_ok_iff.mp hc').symm.trans rightObject)
      subst hco hco'
      exact ⟨c, c', hc, hc', hbelow, hbelow', Or.inr ⟨hname, rest⟩⟩
    · have hsame : id = id' := by
        have := others k hname
        rw [hid, hid'] at this
        exact Option.some.inj this
      subst hsame
      obtain ⟨c, hc, hc', hbelow, hbelow'⟩ :=
        exists_require_both (hs id hmem) (ht id hmem')
      exact ⟨c, c, hc, hc', hbelow, hbelow', Or.inl rfl⟩

/-! ## JSON -/

theorem entriesToJson_congr {f g : Object Id → Except (TreeError Id) Json}
    (h : List.Forall₂ (fun x y => x.1 = y.1 ∧ ∃ c c', s.require x.2 = .ok c ∧
      t.require y.2 = .ok c' ∧ f c = g c') l l') :
    entriesToJson s f l = entriesToJson t g l' := by
  refine Except.mapM_congr₂ ?_ h
  rintro x y ⟨hkey, c, c', hc, hc', hfg⟩
  rw [hc, hc', Except.ok_bind, Except.ok_bind, hkey, hfg]

/-- Conversions that agree on the children both trees have. -/
theorem nodeToJson_shared {f g : Object Id → Except (TreeError Id) Json}
    {n : Node Id} (hs : CompleteBelow s (.node n)) (ht : CompleteBelow t (.node n))
    (h : ∀ c, CompleteBelow s c → CompleteBelow t c → f c = g c) :
    nodeToJson s f n = nodeToJson t g n := by
  refine nodeToJson_congr fun id hid => ?_
  obtain ⟨c, hc, hc', hbelow, hbelow'⟩ :=
    exists_require_both (hs id hid) (ht id hid)
  rw [hc, hc']
  exact h c hbelow hbelow'

theorem toJson_shared (fuel : ℕ) (hs : CompleteBelow s o)
    (ht : CompleteBelow t o) : toJson s fuel o = toJson t fuel o := by
  induction fuel generalizing o with
  | zero => rfl
  | succ fuel ih =>
      cases o with
      | atom a => rfl
      | node n =>
          rw [toJson_node, toJson_node]
          exact nodeToJson_shared hs ht fun c => ih

/-- A tree stored in full converts. -/
theorem exists_toJson (fuel : ℕ) (h : CompleteBelow s o) :
    ∃ value, toJson s fuel o = .ok value := by
  induction fuel generalizing o with
  | zero => exact ⟨.null, rfl⟩
  | succ fuel ih =>
      have hchild : ∀ id ∈ o.childIds, ∃ c value, s.require id = .ok c ∧
          toJson s fuel c = .ok value := by
        intro id hid
        obtain ⟨c, hc, -, hbelow⟩ := exists_require (h id hid)
        obtain ⟨value, hvalue⟩ := ih hbelow
        exact ⟨c, value, hc, hvalue⟩
      have hitems : ∀ items, (∀ id ∈ items, id ∈ o.childIds) →
          ∃ values, itemsToJson s (toJson s fuel) items = .ok values := by
        intro items hmem
        obtain ⟨values, hvalues, -⟩ := Except.exists_mapM_ok (l := items)
          (f := fun id => do
            let child ← s.require id
            toJson s fuel child)
          (by
            intro id hid
            obtain ⟨c, value, hc, hvalue⟩ := hchild id (hmem id hid)
            exact ⟨value, by rw [hc, Except.ok_bind, hvalue]⟩)
        exact ⟨values, hvalues⟩
      match o with
      | .atom a => exact ⟨atomToJson a, rfl⟩
      | .node (.list items) =>
          obtain ⟨values, hvalues⟩ := hitems items fun id hid => hid
          exact ⟨.array values, by simp only [toJson, hvalues, Except.ok_bind]⟩
      | .node (.set items) =>
          obtain ⟨values, hvalues⟩ := hitems items fun id hid => hid
          exact ⟨.array values, by simp only [toJson, hvalues, Except.ok_bind]⟩
      | .node (.map entries) =>
          obtain ⟨values, hvalues, -⟩ := Except.exists_mapM_ok
            (l := entries.toList)
            (f := fun e => do
              let child ← s.require e.2
              let value ← toJson s fuel child
              .ok (e.1, value))
            (by
              intro e he
              obtain ⟨c, value, hc, hvalue⟩ :=
                hchild e.2 (mem_childIds_of_mem_toList he)
              exact ⟨(e.1, value),
                by rw [hc, Except.ok_bind, hvalue, Except.ok_bind]⟩)
          refine ⟨.object values, ?_⟩
          have hentries :
              entriesToJson s (toJson s fuel) entries.toList = .ok values :=
            hvalues
          simp only [toJson, hentries, Except.ok_bind]

theorem toJsonCapped_shared (levels : ℕ) (hs : CompleteBelow s o)
    (ht : CompleteBelow t o) :
    toJsonCapped s levels o = toJsonCapped t levels o := by
  induction levels generalizing o with
  | zero => cases o <;> rfl
  | succ levels ih =>
      cases o with
      | atom a => rfl
      | node n =>
          rw [toJsonCapped_node, toJsonCapped_node]
          exact nodeToJson_shared hs ht fun c => ih

theorem keys_eq_of_childrenAlike {name : String}
    (h : List.Forall₂ (ChildrenAlike s t name names) l l') :
    l.map Prod.fst = l'.map Prod.fst := by
  induction h with
  | nil => rfl
  | cons hxy _ ih => simp only [List.map_cons, hxy.1, ih]

/-- A read that stops above the difference does not see it. -/
theorem toJsonCapped_alike {levels : ℕ} {o' : Object Id}
    (h : DifferOnlyAt s t names o o') (hs : CompleteBelow s o)
    (ht : CompleteBelow t o') (hlevels : levels < names.length) :
    toJsonCapped s levels o = toJsonCapped t levels o' := by
  induction levels generalizing names o o' with
  | zero =>
      cases h with
      | here => simp at hlevels
      | @inside name names entries entries' =>
        have hkeys := keys_eq_of_childrenAlike (forall₂_childrenAlike
          (DifferOnlyAt.inside ‹_› ‹_› ‹_› ‹_› ‹_› ‹_›) hs ht)
        rw [Std.ExtTreeMap.map_fst_toList_eq_keys,
          Std.ExtTreeMap.map_fst_toList_eq_keys] at hkeys
        simp only [toJsonCapped, Object.map, truncated, hkeys]
  | succ levels ih =>
      cases hdiff : h with
      | here => simp at hlevels
      | @inside name names entries entries' =>
        have hentries : entriesToJson s (toJsonCapped s levels)
            entries.toList =
            entriesToJson t (toJsonCapped t levels) entries'.toList := by
          refine entriesToJson_congr ((forall₂_childrenAlike h hs ht).imp ?_)
          rintro x y ⟨hkey, c, c', hc, hc', hbelow, hbelow', hsame⟩
          refine ⟨hkey, c, c', hc, hc', ?_⟩
          rcases hsame with rfl | ⟨-, hrest⟩
          · exact toJsonCapped_shared levels hbelow hbelow'
          · exact ih hrest hbelow hbelow'
              (by simpa only [List.length_cons, Nat.add_lt_add_iff_right]
                using hlevels)
        simp only [toJsonCapped, Object.map, hentries]

/-! ## Leaf paths -/

theorem collectChildren_congr {f g : Object Id → String → List String →
      Except (TreeError Id) (List String)} {current : String}
    (h : List.Forall₂ (fun x y => x.1 = y.1 ∧ ∃ c c', s.require x.2 = .ok c ∧
      t.require y.2 = .ok c' ∧ ∀ path paths, f c path paths = g c' path paths)
      l l') (paths : List String) :
    collectChildren s f current l paths =
      collectChildren t g current l' paths := by
  refine Except.foldlM_congr₂ (P := fun _ => True) ?_ (fun _ _ _ _ _ => trivial)
    h trivial
  rintro acc x y ⟨hkey, c, c', hc, hc', hfg⟩ -
  rw [hc, hc', Except.ok_bind, Except.ok_bind, hkey, hfg]

theorem collectPaths_shared (levels : ℕ) (hs : CompleteBelow s o)
    (ht : CompleteBelow t o) (current : String) (paths : List String) :
    collectPaths s levels o current paths =
      collectPaths t levels o current paths := by
  induction levels generalizing o current paths with
  | zero => rfl
  | succ levels ih =>
      have hchildren : ∀ children : List (String × Id),
          (∀ e ∈ children, e.2 ∈ o.childIds) →
          collectChildren s (collectPaths s levels) current children paths =
            collectChildren t (collectPaths t levels) current children
              paths := by
        intro children hmem
        refine collectChildren_congr
          ((forall₂_shared_labelled hs ht hmem).imp ?_) paths
        rintro x y ⟨hkey, hid, c, hc, hc', hbelow, hbelow'⟩
        exact ⟨hkey, c, c, hc, hid ▸ hc', fun _ _ => ih hbelow hbelow' _ _⟩
      match o with
      | .atom a => rfl
      | .node (.list items) =>
          simp only [collectPaths,
            hchildren (indexed items) fun e => mem_of_mem_indexed]
      | .node (.set items) =>
          simp only [collectPaths,
            hchildren (indexed items) fun e => mem_of_mem_indexed]
      | .node (.map entries) =>
          simp only [collectPaths,
            hchildren entries.toList fun e => mem_childIds_of_mem_toList]

omit [Digest Id] in
theorem isEmpty_of_getElem? {key : String} (h : entries[key]? = some id) :
    entries.isEmpty = false := by
  rw [Std.ExtTreeMap.isEmpty_eq_false_iff]
  rintro rfl
  simp at h

theorem collectPaths_alike {levels : ℕ} {o' : Object Id}
    (h : DifferOnlyAt s t names o o') (hs : CompleteBelow s o)
    (ht : CompleteBelow t o') (hlevels : levels ≤ names.length)
    (current : String) (paths : List String) :
    collectPaths s levels o current paths =
      collectPaths t levels o' current paths := by
  induction levels generalizing names o o' current paths with
  | zero => rfl
  | succ levels ih =>
      cases hdiff : h with
      | here => simp at hlevels
      | @inside name names entries entries' i i' _ _ _ left right =>
        have hchildren :
            collectChildren s (collectPaths s levels) current entries.toList
              paths =
            collectChildren t (collectPaths t levels) current entries'.toList
              paths := by
          refine collectChildren_congr
            ((forall₂_childrenAlike h hs ht).imp ?_) paths
          rintro x y ⟨hkey, c, c', hc, hc', hbelow, hbelow', hsame⟩
          refine ⟨hkey, c, c', hc, hc', ?_⟩
          intro path acc
          rcases hsame with rfl | ⟨-, hrest⟩
          · exact collectPaths_shared levels hbelow hbelow' path acc
          · exact ih hrest hbelow hbelow'
              (by simpa only [List.length_cons, Nat.add_le_add_iff_right]
                using hlevels) path acc
        simp only [collectPaths, Object.map, hchildren,
          isEmpty_of_getElem? left, isEmpty_of_getElem? right]

end

/-! ## Search -/

section Search

variable {text : TextTables} {query : String} {limit : ℕ}

variable {current : String} {results : List (String × String)} {o : Object Id}

theorem searchChildren_congr {P : List (String × String) → Prop}
    {f g : Object Id → String → List (String × String) →
      Except (TreeError Id) (List (String × String))}
    {onKey : String → List (String × String) → List (String × String)}
    {l l' : List (String × Id)}
    (h : List.Forall₂ (fun x y => x.1 = y.1 ∧ ∃ c c', s.require x.2 = .ok c ∧
      t.require y.2 = .ok c' ∧ ∀ path results, P results →
        f c path (onKey x.1 results) = g c' path (onKey x.1 results)) l l')
    (hkeep : ∀ c path key results results', P results →
      f c path (onKey key results) = .ok results' → P results')
    (hP : P results) :
    searchChildren limit s f onKey current l results =
      searchChildren limit t g onKey current l' results := by
  refine Except.foldlM_congr₂ (P := P) ?_ ?_ h hP
  · rintro acc x y ⟨hkey, c, c', hc, hc', hfg⟩ hacc
    rw [hc, hc', Except.ok_bind, Except.ok_bind, ← hkey, hfg _ _ hacc]
  · intro acc x acc' hacc hstep
    split at hstep
    · cases hstep
      exact hacc
    · obtain ⟨c, -, hf⟩ := Except.bind_eq_ok_iff.mp hstep
      exact hkeep c _ x.1 acc acc' hacc hf

theorem searchRecursive_shared (levels : ℕ) (hs : CompleteBelow s o)
    (ht : CompleteBelow t o) (current : String)
    (results : List (String × String)) :
    searchRecursive text query limit s levels o current results =
      searchRecursive text query limit t levels o current results := by
  induction levels generalizing o current results with
  | zero => rfl
  | succ levels ih =>
      have hchildren : ∀ onKey, ∀ children : List (String × Id),
          (∀ e ∈ children, e.2 ∈ o.childIds) →
          searchChildren limit s (searchRecursive text query limit s levels)
            onKey current children results =
          searchChildren limit t (searchRecursive text query limit t levels)
            onKey current children results := by
        intro onKey children hmem
        refine searchChildren_congr (P := fun _ => True)
          ((forall₂_shared_labelled hs ht hmem).imp ?_)
          (fun _ _ _ _ _ _ _ => trivial) trivial
        rintro x y ⟨hkey, hid, c, hc, hc', hbelow, hbelow'⟩
        exact ⟨hkey, c, c, hc, hid ▸ hc', fun _ _ _ => ih hbelow hbelow' _ _⟩
      match o with
      | .atom a => rfl
      | .node (.list items) =>
          simp only [searchRecursive,
            hchildren _ (indexed items) fun e => mem_of_mem_indexed]
      | .node (.set items) =>
          simp only [searchRecursive,
            hchildren _ (indexed items) fun e => mem_of_mem_indexed]
      | .node (.map entries) =>
          simp only [searchRecursive,
            hchildren _ entries.toList fun e => mem_childIds_of_mem_toList]

omit [Digest Id] in
theorem le_length_matchKey (current key : String)
    (results : List (String × String)) :
    results.length ≤ (matchKey text query current key results).length := by
  simp only [matchKey]
  split
  · simp
  · exact le_rfl

theorem le_length_searchRecursive (s : ObjectStore Id) (levels : ℕ)
    {results' : List (String × String)}
    (h : searchRecursive text query limit s levels o current results =
      .ok results') : results.length ≤ results'.length := by
  induction levels generalizing o current results results' with
  | zero =>
      cases h
      exact le_rfl
  | succ levels ih =>
      have hchildren : ∀ onKey : String → List (String × String) →
            List (String × String),
          (∀ key acc, acc.length ≤ (onKey key acc).length) →
          ∀ children : List (String × Id),
          searchChildren limit s (searchRecursive text query limit s levels)
            onKey current children results = .ok results' →
          results.length ≤ results'.length := by
        intro onKey honKey children hrun
        refine Except.foldlM_invariant
          (P := fun acc => results.length ≤ acc.length) ?_ le_rfl hrun
        intro acc x _ acc' hacc hstep
        split at hstep
        · cases hstep
          exact hacc
        · obtain ⟨c, -, hf⟩ := Except.bind_eq_ok_iff.mp hstep
          exact hacc.trans ((honKey x.1 acc).trans (ih hf))
      by_cases hfull : limit ≤ results.length
      · have hsame : results = results' := by
          cases o <;> simpa [searchRecursive, hfull] using h
        rw [hsame]
      · match o with
        | .atom a =>
            simp only [searchRecursive, if_neg hfull] at h
            split at h
            · cases h
              exact le_rfl
            · split at h
              · cases h
                simp
              · cases h
                exact le_rfl
        | .node (.list items) =>
            simp only [searchRecursive, if_neg hfull] at h
            exact hchildren _ (fun _ _ => le_rfl) _ h
        | .node (.set items) =>
            simp only [searchRecursive, if_neg hfull] at h
            exact hchildren _ (fun _ _ => le_rfl) _ h
        | .node (.map entries) =>
            simp only [searchRecursive, if_neg hfull] at h
            exact hchildren _ (le_length_matchKey current) _ h

/-- How many of the names on the way are hits themselves. -/
def nameHits (text : TextTables) (query : String) (names : List String) : ℕ :=
  names.countP fun name => contains (text.toLowercase name) query

theorem length_matchKey (current name : String) (names : List String)
    (results : List (String × String)) :
    (matchKey text query current name results).length + nameHits text query names
      = results.length + nameHits text query (name :: names) := by
  simp only [matchKey, nameHits, List.countP_cons]
  split
  · simp only [List.length_append, List.length_singleton]
    omega
  · simp

theorem searchRecursive_alike {levels : ℕ} {names : List String}
    {o' : Object Id} (h : DifferOnlyAt s t names o o') (hs : CompleteBelow s o)
    (ht : CompleteBelow t o')
    (hlimit : limit ≤ results.length + nameHits text query names) :
    searchRecursive text query limit s levels o current results =
      searchRecursive text query limit t levels o' current results := by
  induction levels generalizing names o o' current results with
  | zero => rfl
  | succ levels ih =>
      cases hdiff : h with
      | here =>
          have hfull : limit ≤ results.length := by
            simpa [nameHits] using hlimit
          simp only [searchRecursive, if_pos hfull]
      | @inside name names entries entries' =>
        have hchildren :
            searchChildren limit s (searchRecursive text query limit s levels)
              (matchKey text query current) current entries.toList results =
            searchChildren limit t (searchRecursive text query limit t levels)
              (matchKey text query current) current entries'.toList
              results := by
          refine searchChildren_congr
            (P := fun acc =>
              limit ≤ acc.length + nameHits text query (name :: names))
            ((forall₂_childrenAlike h hs ht).imp ?_) ?_ hlimit
          · rintro x y ⟨hkey, c, c', hc, hc', hbelow, hbelow', hsame⟩
            refine ⟨hkey, c, c', hc, hc', ?_⟩
            intro path acc hacc
            rcases hsame with rfl | ⟨hname, hrest⟩
            · exact searchRecursive_shared levels hbelow hbelow' path _
            · apply ih hrest hbelow hbelow'
              rw [hname, length_matchKey]
              exact hacc
          · intro c path key acc acc' hacc hstep
            have hgrow := le_length_searchRecursive s levels hstep
            have hkey :
                acc.length ≤ (matchKey text query current key acc).length :=
              le_length_matchKey current key acc
            omega
        simp only [searchRecursive, Object.map, hchildren]

end Search

/-! ## Following a path -/

/-- Where a path leads in the two trees: into a part they share, or along the
key path they differ at. -/
inductive Spot (s t : ObjectStore Id) (names : List String) :
    List PathComponent → Object Id → Object Id → Prop
  | shared {path : List PathComponent} {o : Object Id}
      (left : CompleteBelow s o) (right : CompleteBelow t o) :
      Spot s t names path o o
  | alike {used rest : List String} {o o' : Object Id}
      (split : names = used ++ rest) (diff : DifferOnlyAt s t rest o o')
      (left : CompleteBelow s o) (right : CompleteBelow t o') :
      Spot s t names (used.map PathComponent.key) o o'

variable {path : StatePath} {o : Object Id} {names : List String}

theorem navigate_of_childIdAt {c : PathComponent} {id : Id}
    (h : childIdAt o c = some id) : navigate s path o c = s.require id := by
  match o, c with
  | .node (.map entries), .key key =>
      have hget : entries[key]? = some id := h
      simp only [navigate, hget]
  | .node (.list items), .index idx =>
      have hget : items[idx]? = some id := h
      simp only [navigate, hget]
  | .node (.map _), .index _ => simp [childIdAt] at h
  | .node (.list _), .key _ => simp [childIdAt] at h
  | .node (.set _), _ => simp [childIdAt] at h
  | .atom _, _ => simp [childIdAt] at h

theorem exists_error_of_childIdAt {c : PathComponent}
    (h : childIdAt o c = none) :
    ∃ e, navigate s path o c = .error e ∧ navigate t path o c = .error e := by
  match o, c with
  | .node (.map entries), .key key =>
      have hget : entries[key]? = none := h
      simp only [navigate, hget]
      exact ⟨_, rfl, rfl⟩
  | .node (.list items), .index idx =>
      have hget : items[idx]? = none := h
      simp only [navigate, hget]
      exact ⟨_, rfl, rfl⟩
  | .node (.map _), .index _ => exact ⟨_, rfl, rfl⟩
  | .node (.list _), .key _ => exact ⟨_, rfl, rfl⟩
  | .node (.set _), .key _ => exact ⟨_, rfl, rfl⟩
  | .node (.set _), .index _ => exact ⟨_, rfl, rfl⟩
  | .atom _, _ => exact ⟨_, rfl, rfl⟩

theorem Spot.step {names : List String} {done : List PathComponent}
    {o o' : Object Id} (h : Spot s t names done o o') {c : PathComponent}
    (hclear : ¬names.map PathComponent.key <+: done ++ [c])
    (path : StatePath) :
    (childIdAt o c = none ∧ childIdAt o' c = none ∧
      ∃ e, navigate s path o c = .error e ∧ navigate t path o' c = .error e) ∨
    ∃ i i' x x', childIdAt o c = some i ∧ childIdAt o' c = some i' ∧
      s.require i = .ok x ∧ t.require i' = .ok x' ∧
      Spot s t names (done ++ [c]) x x' := by
  cases h with
  | shared left right =>
      cases hid : childIdAt o c with
      | none => exact Or.inl ⟨rfl, rfl, exists_error_of_childIdAt hid⟩
      | some id =>
          have hmem : id ∈ o.childIds := mem_childIds_of_childIdAt hid
          obtain ⟨x, hx, hx', hbelow, hbelow'⟩ :=
            exists_require_both (left id hmem) (right id hmem)
          exact Or.inr ⟨id, id, x, x, rfl, rfl, hx, hx', .shared hbelow hbelow'⟩
  | @alike used rest _ _ split diff left right =>
      cases diff with
      | here =>
          rw [split, List.append_nil] at hclear
          exact absurd (List.prefix_append _ _) hclear
      | @inside name names' entries entries' i i' x x' others hi hi' hx hx' hrest =>
          have hleft : CompleteBelow s x :=
            completeBelow_of_get (left i (Object.mem_childIds_of_getElem? hi)) hx
          have hright : CompleteBelow t x' :=
            completeBelow_of_get
              (right i' (Object.mem_childIds_of_getElem? hi')) hx'
          cases c with
          | index idx => exact Or.inl ⟨rfl, rfl, _, rfl, rfl⟩
          | key key =>
              by_cases hkey : key = name
              · subst hkey
                refine Or.inr ⟨i, i', x, x', hi, hi', require_eq_ok_iff.mpr hx,
                  require_eq_ok_iff.mpr hx', ?_⟩
                have hdone : used.map PathComponent.key ++ [.key key] =
                    (used ++ [key]).map PathComponent.key := by simp
                rw [hdone]
                exact .alike (by simp [split]) hrest hleft hright
              · have hsame := others key hkey
                cases hid : entries[key]? with
                | none =>
                    have hid' : entries'[key]? = none := by rw [← hsame, hid]
                    refine Or.inl ⟨hid, hid', .pathNotFound path.toString,
                      ?_, ?_⟩
                    · simp only [navigate, Object.map, hid]
                    · simp only [navigate, Object.map, hid']
                | some id =>
                    have hid' : entries'[key]? = some id := by rw [← hsame, hid]
                    obtain ⟨y, hy, hy', hbelow, hbelow'⟩ :=
                      exists_require_both
                        (left id (Object.mem_childIds_of_getElem? hid))
                        (right id (Object.mem_childIds_of_getElem? hid'))
                    exact Or.inr ⟨id, id, y, y, hid, hid', hy, hy',
                      .shared hbelow hbelow'⟩

theorem foldlM_navigate_spot {done comps : List PathComponent} {o' : Object Id}
    (h : Spot s t names done o o')
    (hclear : ¬names.map PathComponent.key <+: done ++ comps) :
    (∃ e, comps.foldlM (navigate s path) o = .error e ∧
      comps.foldlM (navigate t path) o' = .error e) ∨
    ∃ x x', comps.foldlM (navigate s path) o = .ok x ∧
      comps.foldlM (navigate t path) o' = .ok x' ∧
      Spot s t names (done ++ comps) x x' := by
  induction comps generalizing done o o' with
  | nil =>
      rw [List.append_nil]
      exact Or.inr ⟨o, o', rfl, rfl, h⟩
  | cons c comps ih =>
      have hclear' : ¬names.map PathComponent.key <+: done ++ [c] := by
        intro hpre
        apply hclear
        refine hpre.trans ?_
        rw [show done ++ c :: comps = done ++ [c] ++ comps by simp]
        exact List.prefix_append _ _
      rw [List.foldlM_cons, List.foldlM_cons]
      rcases h.step hclear' path with
        ⟨-, -, e, he, he'⟩ | ⟨i, i', x, x', hi, hi', hx, hx', hspot⟩
      · rw [he, he']
        exact Or.inl ⟨e, rfl, rfl⟩
      · rw [navigate_of_childIdAt hi, navigate_of_childIdAt hi', hx, hx',
          Except.ok_bind, Except.ok_bind]
        have hrest := ih hspot (by simpa using hclear)
        simpa using hrest

theorem Spot.eq_of_not_prefix {done : List PathComponent} {o' : Object Id}
    (h : Spot s t names done o o')
    (hoff : ¬done <+: names.map PathComponent.key) :
    o = o' ∧ CompleteBelow s o ∧ CompleteBelow t o := by
  cases h with
  | shared left right => exact ⟨rfl, left, right⟩
  | alike split =>
      rw [split, List.map_append] at hoff
      exact absurd (List.prefix_append _ _) hoff

/-! ## Several paths -/

/-- Two walks of one path, both ended or at two spots, with the components
left; the whole path stays clear of the difference. -/
def Tracked (s t : ObjectStore Id) (names : List String)
    (x y : List PathComponent × Option (Object Id)) : Prop :=
  x.1 = y.1 ∧
    ((x.2 = none ∧ y.2 = none) ∨
      ∃ done o o', x.2 = some o ∧ y.2 = some o' ∧ Spot s t names done o o' ∧
        PathsDisjoint (done ++ x.1) (names.map PathComponent.key))

theorem Tracked.descend {x y : List PathComponent × Option (Object Id)}
    (h : Tracked s t names x y) :
    ∃ x' y', descend s x = .ok x' ∧ descend t y = .ok y' ∧
      Tracked s t names x' y' ∧ x'.1.length = x.1.length - 1 := by
  obtain ⟨rest, cur⟩ := x
  obtain ⟨rest', cur'⟩ := y
  obtain ⟨hrest, hcur⟩ := h
  simp only at hrest
  subst hrest
  cases rest with
  | nil => exact ⟨([], cur), ([], cur'), rfl, rfl, ⟨rfl, hcur⟩, rfl⟩
  | cons c rest =>
      rcases hcur with ⟨hx, hy⟩ | ⟨done, o, o', hx, hy, hspot, hdisj⟩
      · simp only at hx hy
        subst hx hy
        exact ⟨(rest, none), (rest, none), rfl, rfl, ⟨rfl, Or.inl ⟨rfl, rfl⟩⟩,
          by simp⟩
      · simp only at hx hy hdisj
        subst hx hy
        have hclear : ¬names.map PathComponent.key <+: done ++ [c] := by
          intro hpre
          apply hdisj.2
          refine hpre.trans ?_
          rw [show done ++ c :: rest = done ++ [c] ++ rest by simp]
          exact List.prefix_append _ _
        rcases hspot.step hclear StatePath.root with
          ⟨hi, hi', -⟩ | ⟨i, i', z, z', hi, hi', hz, hz', hspot'⟩
        · refine ⟨(rest, none), (rest, none), ?_, ?_, ⟨rfl, Or.inl ⟨rfl, rfl⟩⟩,
            by simp⟩
          · simp only [AgentStateGraph.descend, Option.bind_some, hi]
          · simp only [AgentStateGraph.descend, Option.bind_some, hi']
        · refine ⟨(rest, some z), (rest, some z'), ?_, ?_, ⟨rfl, Or.inr
            ⟨done ++ [c], z, z', rfl, rfl, hspot', by simpa using hdisj⟩⟩,
            by simp⟩
          · simp only [AgentStateGraph.descend, Option.bind_some, hi, hz,
              Except.ok_bind]
          · simp only [AgentStateGraph.descend, Option.bind_some, hi', hz',
              Except.ok_bind]

/-- What several paths find, side by side. -/
def FoundAlike (s t : ObjectStore Id) (x y : Option (Object Id)) : Prop :=
  x = y ∧ ∀ o, x = some o → CompleteBelow s o ∧ CompleteBelow t o

theorem descendLevels_alike {levels : ℕ}
    {l l' : List (List PathComponent × Option (Object Id))}
    (h : List.Forall₂ (fun x y => Tracked s t names x y ∧ x.1.length ≤ levels)
      l l') :
    ∃ r r', descendLevels s levels l = .ok r ∧
      descendLevels t levels l' = .ok r' ∧
      List.Forall₂ (FoundAlike s t) r r' := by
  induction levels generalizing l l' with
  | zero =>
      refine ⟨_, _, rfl, rfl, ?_⟩
      rw [List.forall₂_map_left_iff, List.forall₂_map_right_iff]
      refine h.imp ?_
      rintro ⟨rest, cur⟩ ⟨rest', cur'⟩ ⟨⟨hrest, hcur⟩, hlen⟩
      have hnil : rest = [] := by simpa using hlen
      rcases hcur with ⟨hx, hy⟩ | ⟨done, o, o', hx, hy, hspot, hdisj⟩
      · simp only at hx hy
        subst hx hy
        exact ⟨rfl, by simp⟩
      · simp only [hnil, List.append_nil] at hx hy hdisj
        subst hx hy
        obtain ⟨rfl, hleft, hright⟩ := hspot.eq_of_not_prefix hdisj.1
        refine ⟨rfl, ?_⟩
        rintro o ⟨rfl⟩
        exact ⟨hleft, hright⟩
  | succ levels ih =>
      obtain ⟨n, n', hn, hn', hnext⟩ := Except.exists_mapM_forall₂
        (f := descend s) (g := descend t)
        (Q := fun x y => Tracked s t names x y ∧ x.1.length ≤ levels)
        (by
          rintro x y ⟨htracked, hlen⟩
          obtain ⟨x', y', hx', hy', htracked', hlen'⟩ := htracked.descend
          exact ⟨x', y', hx', hy', htracked', by omega⟩) h
      obtain ⟨r, r', hr, hr', hfound⟩ := ih hnext
      refine ⟨r, r', ?_, ?_, hfound⟩
      · simp only [descendLevels, hn, Except.ok_bind, hr]
      · simp only [descendLevels, hn', Except.ok_bind, hr']

/-- What one path finds below an object. -/
def followPath (s : ObjectStore Id) :
    List PathComponent → Option (Object Id) → Option (Object Id)
  | [], current => current
  | c :: rest, current =>
      followPath s rest ((current.bind fun o => childIdAt o c).bind s.get)

theorem completeBelow_followPath {comps : List PathComponent}
    {current : Option (Object Id)}
    (h : ∀ o, current = some o → CompleteBelow s o)
    (ho : followPath s comps current = some o) : CompleteBelow s o := by
  induction comps generalizing current with
  | nil => exact h o ho
  | cons c comps ih =>
      refine ih ?_ ho
      intro x hx
      obtain ⟨id, hid, hget⟩ := Option.bind_eq_some_iff.mp hx
      obtain ⟨y, hy, hchild⟩ := Option.bind_eq_some_iff.mp hid
      exact completeBelow_of_get
        (h y hy id (mem_childIds_of_childIdAt hchild)) hget

theorem descend_eq_ok {x : List PathComponent × Option (Object Id)}
    (h : ∀ o, x.2 = some o → CompleteBelow s o) :
    ∃ y, descend s x = .ok y ∧ y.1.length = x.1.length - 1 ∧
      followPath s y.1 y.2 = followPath s x.1 x.2 ∧
      ∀ o, y.2 = some o → CompleteBelow s o := by
  obtain ⟨rest, cur⟩ := x
  cases rest with
  | nil => exact ⟨([], cur), rfl, rfl, rfl, h⟩
  | cons c rest =>
      cases hid : cur.bind fun o => childIdAt o c with
      | none =>
          refine ⟨(rest, none), ?_, by simp, ?_, by simp⟩
          · simp only [descend, hid]
          · simp only [followPath, hid, Option.bind_none]
      | some id =>
          obtain ⟨o, ho, hchild⟩ := Option.bind_eq_some_iff.mp hid
          have hmem := h o ho id (mem_childIds_of_childIdAt hchild)
          obtain ⟨y, hy, -, hbelow⟩ := exists_require hmem
          refine ⟨(rest, some y), ?_, by simp, ?_, ?_⟩
          · simp only [descend, hid, hy, Except.ok_bind]
          · simp only [followPath, hid, Option.bind_some,
              require_eq_ok_iff.mp hy]
          · rintro _ ⟨rfl⟩
            exact hbelow

/-- On a tree stored in full, walking several paths together finds what each
finds alone. -/
theorem descendLevels_eq_ok {levels : ℕ}
    {l : List (List PathComponent × Option (Object Id))}
    (h : ∀ x ∈ l, x.1.length ≤ levels ∧
      ∀ o, x.2 = some o → CompleteBelow s o) :
    descendLevels s levels l = .ok (l.map fun x => followPath s x.1 x.2) := by
  induction levels generalizing l with
  | zero =>
      simp only [descendLevels, Except.ok.injEq]
      refine List.map_congr_left ?_
      rintro ⟨rest, cur⟩ hx
      have hnil : rest = [] := by simpa using (h _ hx).1
      rw [hnil]
      rfl
  | succ levels ih =>
      obtain ⟨next, hnext, hall⟩ := Except.exists_mapM_ok (f := descend s)
        (l := l) (by
          intro x hx
          obtain ⟨y, hy, -⟩ := descend_eq_ok (h x hx).2
          exact ⟨y, hy⟩)
      have hstep : ∀ y ∈ next, ∃ x ∈ l, descend s x = .ok y := by
        intro y hy
        exact Except.exists_of_mem_forall₂ hall.flip hy
      have hbound : ∀ y ∈ next, y.1.length ≤ levels ∧
          ∀ o, y.2 = some o → CompleteBelow s o := by
        intro y hy
        obtain ⟨x, hx, hxy⟩ := hstep y hy
        obtain ⟨y', hy', hlen, -, hbelow⟩ := descend_eq_ok (h x hx).2
        have hsame : y' = y := by simpa [hxy] using hy'.symm
        subst hsame
        have hxlen := (h x hx).1
        exact ⟨by omega, hbelow⟩
      simp only [descendLevels, hnext, Except.ok_bind, ih hbound,
        Except.ok.injEq]
      clear hnext hstep hbound
      induction hall with
      | nil => rfl
      | @cons x y l next hxy _ ihall =>
          obtain ⟨y', hy', -, hfollow, -⟩ := descend_eq_ok (h x (by simp)).2
          have hsame : y' = y := by simpa [hxy] using hy'.symm
          subst hsame
          rw [List.map_cons, List.map_cons, hfollow,
            ihall fun z hz => h z (by simp [hz])]

theorem treesToJson_alike {r r' : List (Option (Object Id))}
    (h : List.Forall₂ (FoundAlike s t) r r') :
    treesToJson s r = treesToJson t r' := by
  refine Except.mapM_congr₂ ?_ h
  rintro x y ⟨rfl, hcomplete⟩
  cases x with
  | none => rfl
  | some o =>
      obtain ⟨hs, ht⟩ := hcomplete o rfl
      simp only [treeToJson, toJson_shared _ hs ht]

end AgentStateGraph
