import AgentStateGraph.Lib.ExceptBind
import AgentStateGraph.Tree.Write

/-!
# What a write changes

`lookup` names the id that stands at a path.  A write to a path leaves the id
at every disjoint path alone, and a write that succeeded in one store succeeds
with the same root in every larger one.
-/

namespace AgentStateGraph

open AddressedMap

variable {Id : Type} [Digest Id]

/-- The id at a path below an object; the path must not be empty. -/
def lookup (store : ObjectStore Id) : Object Id → List PathComponent → Option Id
  | _, [] => none
  | o, [c] => childIdAt o c
  | o, c :: rest =>
      match childIdAt o c with
      | none => none
      | some id =>
          match store.get id with
          | none => none
          | some child => lookup store child rest

/-- The id at a path below a root; the root's own id at the root path. -/
def idAt (store : ObjectStore Id) (root : Id) (path : List PathComponent) :
    Option Id :=
  if path.isEmpty then some root
  else
    match store.get root with
    | none => none
    | some o => lookup store o path

theorem lookup_cons_cons (store : ObjectStore Id) (o : Object Id)
    (c d : PathComponent) (rest : List PathComponent) :
    lookup store o (c :: d :: rest) =
      match childIdAt o c with
      | none => none
      | some id =>
          match store.get id with
          | none => none
          | some child => lookup store child (d :: rest) := by
  rw [lookup]
  simp

variable {store store' view bigger : ObjectStore Id}
  {q comps : List PathComponent} {valueId root newRoot : Id} {depth : ℕ}
  {current new value : Object Id} {path : StatePath}

theorem lookup_eq_of_childIdAt_eq {o o' : Object Id} {c : PathComponent}
    {rest : List PathComponent} (h : childIdAt o c = childIdAt o' c) :
    lookup store o (c :: rest) = lookup store o' (c :: rest) := by
  cases rest with
  | nil => exact h
  | cons d rest => rw [lookup_cons_cons, lookup_cons_cons, h]

/-- Neither path leads through the other. -/
def PathsDisjoint (p q : List PathComponent) : Prop := ¬p <+: q ∧ ¬q <+: p

theorem PathsDisjoint.of_cons {c : PathComponent} {p : List PathComponent}
    (h : PathsDisjoint (c :: p) (c :: q)) : PathsDisjoint p q := by
  simpa [PathsDisjoint] using h

theorem PathsDisjoint.symm {p : List PathComponent} (h : PathsDisjoint p q) :
    PathsDisjoint q p :=
  ⟨h.2, h.1⟩

/-! ## One level of a write -/

/-- An object with the child at a component replaced, or created where the
object can take one there. -/
def replaceChild (o : Object Id) (c : PathComponent) (id : Id) :
    Option (Object Id) :=
  match o, c with
  | .node (.map entries), .key key => some (Object.map (entries.insert key id))
  | .node (.list items), .index idx =>
      if idx < items.length then some (Object.list (items.set idx id)) else none
  | .atom .null, .key key =>
      some (Object.map ((∅ : BTreeMap String Id).insert key id))
  | _, _ => none

omit [Digest Id] in
theorem childIdAt_replaceChild {o o' : Object Id} {c : PathComponent} {id : Id}
    (h : replaceChild o c id = some o') (c' : PathComponent) :
    childIdAt o' c' = if c = c' then some id else childIdAt o c' := by
  unfold replaceChild at h
  split at h
  next entries key =>
    simp only [Option.some.injEq] at h
    subst h
    cases c' with
    | key k => simp [childIdAt, Object.map, Std.ExtTreeMap.getElem?_insert]
    | index i => simp [childIdAt, Object.map]
  next items idx =>
    split at h
    next hlt =>
      simp only [Option.some.injEq] at h
      subst h
      cases c' with
      | key k => simp [childIdAt, Object.list]
      | index i =>
          simp only [childIdAt, Object.list, List.getElem?_set,
            PathComponent.index.injEq]
          split
          next heq => simp
          next => rfl
    next => contradiction
  next key =>
    simp only [Option.some.injEq] at h
    subst h
    cases c' with
    | key k => simp [childIdAt, Object.map, Std.ExtTreeMap.getElem?_insert]
    | index i => simp [childIdAt, Object.map]
  next => contradiction

theorem require_eq_ok_iff {id : Id} {o : Object Id} :
    store.require id = .ok o ↔ store.get id = some o := by
  unfold ObjectStore.require
  cases store.get id <;> simp

theorem require_mono {s t : ObjectStore Id} (hle : s ≤ t) {id : Id}
    {o : Object Id} (h : s.require id = .ok o) : t.require id = .ok o :=
  require_eq_ok_iff.mpr (hle _ _ (require_eq_ok_iff.mp h))

theorem childForSet_eq_ok {entries : BTreeMap String Id} {key : String}
    {child : Object Id} (h : childForSet store entries key = .ok child) :
    entries[key]? = none ∧ child = Object.emptyMap ∨
      ∃ id, entries[key]? = some id ∧ store.get id = some child := by
  unfold childForSet at h
  split at h
  next id hid => exact Or.inr ⟨id, hid, require_eq_ok_iff.mp h⟩
  next hnone =>
    simp only [Except.ok.injEq] at h
    exact Or.inl ⟨hnone, h.symm⟩

theorem lookup_emptyMap (store : ObjectStore Id) (path : List PathComponent) :
    lookup store Object.emptyMap path = none := by
  rcases path with _ | ⟨c, _ | ⟨d, path⟩⟩
  · rfl
  · cases c <;> simp [lookup, childIdAt, Object.emptyMap]
  · rw [lookup_cons_cons]
    cases c <;> simp [childIdAt, Object.emptyMap]

/-! ## Setting -/

/-- What one level of `setRecursive` does when it succeeds. -/
theorem setRecursive_cons_eq_ok {c : PathComponent} {rest : List PathComponent}
    (h : setRecursive store valueId (c :: rest) depth current =
      .ok (new, store')) :
    (rest = [] ∧ replaceChild current c valueId = some new ∧ store' = store) ∨
      ∃ child newChild store'',
        rest ≠ [] ∧
        (childIdAt current c = none ∧ child = Object.emptyMap ∨
          ∃ id, childIdAt current c = some id ∧ store.get id = some child) ∧
        setRecursive store valueId rest (depth + 1) child =
          .ok (newChild, store'') ∧
        replaceChild current c newChild.id = some new ∧
        store' = store''.put newChild := by
  rcases c with key | idx <;>
    rcases current with (_ | _ | _ | _ | _ | _ | _) | (entries | items | items)
  case key.atom.null =>
    simp only [setRecursive] at h
    split at h
    next hlast =>
      simp only [Except.ok.injEq, Prod.mk.injEq] at h
      exact Or.inl ⟨by simpa using hlast, by simp [replaceChild, h.1], h.2.symm⟩
    next hlast =>
      obtain ⟨⟨newChild, store''⟩, hrec, h⟩ := Except.bind_eq_ok_iff.mp h
      simp only [Except.ok.injEq, Prod.mk.injEq] at h
      exact Or.inr ⟨Object.emptyMap, newChild, store'', by simpa using hlast,
        Or.inl ⟨rfl, rfl⟩, hrec, by simp [replaceChild, h.1], h.2.symm⟩
  case key.node.map =>
    simp only [setRecursive] at h
    split at h
    next hlast =>
      simp only [Except.ok.injEq, Prod.mk.injEq] at h
      exact Or.inl ⟨by simpa using hlast, by simp [replaceChild, h.1], h.2.symm⟩
    next hlast =>
      obtain ⟨child, hchild, h⟩ := Except.bind_eq_ok_iff.mp h
      obtain ⟨⟨newChild, store''⟩, hrec, h⟩ := Except.bind_eq_ok_iff.mp h
      simp only [Except.ok.injEq, Prod.mk.injEq] at h
      refine Or.inr ⟨child, newChild, store'', by simpa using hlast, ?_, hrec,
        by simp [replaceChild, h.1], h.2.symm⟩
      exact childForSet_eq_ok hchild
  case index.node.list =>
    simp only [setRecursive] at h
    split at h
    next => contradiction
    next childId hchildId =>
      have hlt : idx < items.length :=
        (List.getElem?_eq_some_iff.mp hchildId).1
      split at h
      next hlast =>
        simp only [Except.ok.injEq, Prod.mk.injEq] at h
        exact Or.inl ⟨by simpa using hlast, by simp [replaceChild, hlt, h.1],
          h.2.symm⟩
      next hlast =>
        obtain ⟨child, hchild, h⟩ := Except.bind_eq_ok_iff.mp h
        obtain ⟨⟨newChild, store''⟩, hrec, h⟩ := Except.bind_eq_ok_iff.mp h
        simp only [Except.ok.injEq, Prod.mk.injEq] at h
        exact Or.inr ⟨child, newChild, store'', by simpa using hlast,
          Or.inr ⟨childId, hchildId, require_eq_ok_iff.mp hchild⟩, hrec,
          by simp [replaceChild, hlt, h.1], h.2.symm⟩
  all_goals simp [setRecursive] at h

theorem setRecursive_last {c : PathComponent}
    (h : replaceChild current c valueId = some new) :
    setRecursive store valueId [c] depth current = .ok (new, store) := by
  unfold replaceChild at h
  split at h
  next entries key => simpa [setRecursive] using h
  next items idx =>
    split at h
    next hlt => simpa [setRecursive, hlt] using h
    next => contradiction
  next key => simpa [setRecursive] using h
  next => contradiction

theorem setRecursive_cons {c : PathComponent} {rest : List PathComponent}
    {child newChild : Object Id} (hrest : rest ≠ [])
    (hchild : childIdAt current c = none ∧ child = Object.emptyMap ∨
      ∃ id, childIdAt current c = some id ∧ store.get id = some child)
    (hrec : setRecursive store valueId rest (depth + 1) child =
      .ok (newChild, store'))
    (hnew : replaceChild current c newChild.id = some new) :
    setRecursive store valueId (c :: rest) depth current =
      .ok (new, store'.put newChild) := by
  have hne : rest.isEmpty = false := by simpa using hrest
  unfold replaceChild at hnew
  split at hnew
  next entries key =>
    have hfor : childForSet store entries key = .ok child := by
      unfold childForSet
      rcases hchild with ⟨hnone, rfl⟩ | ⟨id, hid, hget⟩
      · have hnone : entries[key]? = none := hnone
        rw [hnone]
      · have hid : entries[key]? = some id := hid
        rw [hid]
        exact require_eq_ok_iff.mpr hget
    simpa [setRecursive, hne, hfor, hrec] using hnew
  next items idx =>
    split at hnew
    next hlt =>
      rcases hchild with ⟨hnone, -⟩ | ⟨id, hid, hget⟩
      · have hnone : items[idx]? = none := hnone
        simp [hlt] at hnone
      · have hid : items[idx]? = some id := hid
        have hget := require_eq_ok_iff.mpr hget
        simpa [setRecursive, hid, hne, hget, hrec] using hnew
    next => contradiction
  next key =>
    rcases hchild with ⟨-, rfl⟩ | ⟨id, hid, -⟩
    · simpa [setRecursive, hne, hrec] using hnew
    · simp [childIdAt] at hid
  next => contradiction

theorem setRecursive_le
    (h : setRecursive store valueId comps depth current = .ok (new, store')) :
    store ≤ store' := by
  induction comps generalizing depth current new store' with
  | nil =>
      rw [setRecursive_nil] at h
      obtain ⟨value, -, h⟩ := Except.bind_eq_ok_iff.mp h
      simp only [Except.ok.injEq, Prod.mk.injEq] at h
      exact h.2.le
  | cons c rest ih =>
      rcases setRecursive_cons_eq_ok h with
        ⟨-, -, rfl⟩ | ⟨child, newChild, store'', -, -, hrec, -, rfl⟩
      · exact le_refl _
      · exact (ih hrec).trans (ObjectStore.le_put store'' newChild)

theorem setRecursive_lookup {path : List PathComponent}
    (h : setRecursive store valueId comps depth current = .ok (new, store'))
    (hview : store' ≤ view) (hdisjoint : PathsDisjoint comps path) :
    lookup view new path = lookup view current path := by
  induction comps generalizing depth current new store' path with
  | nil => exact absurd List.nil_prefix hdisjoint.1
  | cons c rest ih =>
      cases path with
      | nil => exact absurd List.nil_prefix hdisjoint.2
      | cons d path =>
          by_cases hcd : c = d
          · subst hcd
            have hrest := hdisjoint.of_cons
            rcases setRecursive_cons_eq_ok h with
              ⟨rfl, -, -⟩ | ⟨child, newChild, store'', -, hchild, hrec, hnew, rfl⟩
            · exact absurd List.nil_prefix hrest.1
            · have hstored : view.get newChild.id = some newChild :=
                hview _ _ (AddressedMap.get_put_self store'' newChild)
              have hle : store ≤ view := (setRecursive_le h).trans hview
              have hlookup : lookup view newChild path = lookup view child path :=
                ih hrec ((ObjectStore.le_put store'' newChild).trans hview) hrest
              cases path with
              | nil => exact absurd List.nil_prefix hrest.2
              | cons e path =>
                  have hc := childIdAt_replaceChild hnew c
                  rw [if_pos rfl] at hc
                  rw [lookup_cons_cons, lookup_cons_cons, hc]
                  simp only [hstored, hlookup]
                  rcases hchild with ⟨hnone, rfl⟩ | ⟨id, hid, hget⟩
                  · rw [hnone]
                    exact lookup_emptyMap view (e :: path)
                  · rw [hid]
                    simp only [hle id child hget]
          · have hchild : childIdAt new d = childIdAt current d := by
              rcases setRecursive_cons_eq_ok h with
                ⟨-, hnew, -⟩ | ⟨_, _, _, -, -, -, hnew, -⟩
              · rw [childIdAt_replaceChild hnew, if_neg hcd]
              · rw [childIdAt_replaceChild hnew, if_neg hcd]
            exact lookup_eq_of_childIdAt_eq hchild

/-- A write that succeeds does so, with the same result, in any larger
store. -/
theorem setRecursive_mono
    (h : setRecursive store valueId comps depth current = .ok (new, store'))
    (hle : store ≤ bigger) :
    ∃ bigger', setRecursive bigger valueId comps depth current =
      .ok (new, bigger') ∧ store' ≤ bigger' := by
  induction comps generalizing depth current new store' with
  | nil =>
      rw [setRecursive_nil] at h ⊢
      obtain ⟨value, hvalue, h⟩ := Except.bind_eq_ok_iff.mp h
      simp only [Except.ok.injEq, Prod.mk.injEq] at h
      have hget := hle _ _ (require_eq_ok_iff.mp hvalue)
      refine ⟨bigger, ?_, h.2 ▸ hle⟩
      rw [require_eq_ok_iff.mpr hget, ← h.1]
      rfl
  | cons c rest ih =>
      rcases setRecursive_cons_eq_ok h with
        ⟨rfl, hnew, rfl⟩ |
          ⟨child, newChild, store'', hrest, hchild, hrec, hnew, rfl⟩
      · exact ⟨bigger, setRecursive_last hnew, hle⟩
      · obtain ⟨bigger', hrec', hle'⟩ := ih hrec
        refine ⟨bigger'.put newChild, ?_, AddressedMap.put_mono hle' newChild⟩
        refine setRecursive_cons hrest ?_ hrec' hnew
        rcases hchild with hnone | ⟨id, hid, hget⟩
        · exact Or.inl hnone
        · exact Or.inr ⟨id, hid, hle id child hget⟩

/-! ## Deleting -/

/-- An object with the child at a component taken out. -/
def removeChild (o : Object Id) (c : PathComponent) : Option (Object Id) :=
  match o, c with
  | .node (.map entries), .key key =>
      if key ∈ entries then some (Object.map (entries.erase key)) else none
  | .node (.list items), .index idx =>
      if idx < items.length then some (Object.list (items.eraseIdx idx))
      else none
  | _, _ => none

/-- Taking an element out of a list moves the later ones up; every other
child stays where it was. -/
def ShiftsChild (c c' : PathComponent) : Prop :=
  ∃ i j, c = .index i ∧ c' = .index j ∧ i < j

omit [Digest Id] in
theorem childIdAt_removeChild {o o' : Object Id} {c c' : PathComponent}
    (h : removeChild o c = some o') (hne : c ≠ c') (hshift : ¬ShiftsChild c c') :
    childIdAt o' c' = childIdAt o c' := by
  unfold removeChild at h
  split at h
  next entries key =>
    split at h
    next =>
      simp only [Option.some.injEq] at h
      subst h
      cases c' with
      | key k =>
          have hk : key ≠ k := fun heq => hne (by rw [heq])
          simp [childIdAt, Object.map, Std.ExtTreeMap.getElem?_erase, hk]
      | index i => simp [childIdAt, Object.map]
    next => contradiction
  next items idx =>
    split at h
    next =>
      simp only [Option.some.injEq] at h
      subst h
      cases c' with
      | key k => simp [childIdAt, Object.list]
      | index i =>
          have hlt : i < idx := by
            have hi : i ≠ idx := fun heq => hne (by rw [heq])
            have hi' : ¬idx < i := fun hlt => hshift ⟨idx, i, rfl, rfl, hlt⟩
            omega
          simp [childIdAt, Object.list, List.getElem?_eraseIdx, hlt]
    next => contradiction
  next => contradiction

/-- What one level of `deleteRecursive` does when it succeeds. -/
theorem deleteRecursive_cons_eq_ok {c : PathComponent}
    {rest : List PathComponent}
    (h : deleteRecursive store (c :: rest) depth current = .ok (new, store')) :
    (rest = [] ∧ removeChild current c = some new ∧ store' = store) ∨
      ∃ id child newChild store'',
        rest ≠ [] ∧ childIdAt current c = some id ∧
        store.get id = some child ∧
        deleteRecursive store rest (depth + 1) child = .ok (newChild, store'') ∧
        replaceChild current c newChild.id = some new ∧
        store' = store''.put newChild := by
  rcases c with key | idx <;>
    rcases current with a | (entries | items | items)
  case key.node.map =>
    simp only [deleteRecursive] at h
    split at h
    next => contradiction
    next childId hchildId =>
      split at h
      next hlast =>
        have hmem : key ∈ entries := by
          rw [Std.ExtTreeMap.mem_iff_isSome_getElem?, hchildId]
          rfl
        simp only [Except.ok.injEq, Prod.mk.injEq] at h
        exact Or.inl ⟨by simpa using hlast, by simp [removeChild, hmem, h.1],
          h.2.symm⟩
      next hlast =>
        obtain ⟨child, hchild, h⟩ := Except.bind_eq_ok_iff.mp h
        obtain ⟨⟨newChild, store''⟩, hrec, h⟩ := Except.bind_eq_ok_iff.mp h
        simp only [Except.ok.injEq, Prod.mk.injEq] at h
        exact Or.inr ⟨childId, child, newChild, store'', by simpa using hlast,
          hchildId, require_eq_ok_iff.mp hchild, hrec,
          by simp [replaceChild, h.1], h.2.symm⟩
  case index.node.list =>
    simp only [deleteRecursive] at h
    split at h
    next => contradiction
    next childId hchildId =>
      have hlt : idx < items.length :=
        (List.getElem?_eq_some_iff.mp hchildId).1
      split at h
      next hlast =>
        simp only [Except.ok.injEq, Prod.mk.injEq] at h
        exact Or.inl ⟨by simpa using hlast, by simp [removeChild, hlt, h.1],
          h.2.symm⟩
      next hlast =>
        obtain ⟨child, hchild, h⟩ := Except.bind_eq_ok_iff.mp h
        obtain ⟨⟨newChild, store''⟩, hrec, h⟩ := Except.bind_eq_ok_iff.mp h
        simp only [Except.ok.injEq, Prod.mk.injEq] at h
        exact Or.inr ⟨childId, child, newChild, store'', by simpa using hlast,
          hchildId, require_eq_ok_iff.mp hchild, hrec,
          by simp [replaceChild, hlt, h.1], h.2.symm⟩
  all_goals simp [deleteRecursive] at h

theorem deleteRecursive_last {c : PathComponent}
    (h : removeChild current c = some new) :
    deleteRecursive store [c] depth current = .ok (new, store) := by
  unfold removeChild at h
  split at h
  next entries key =>
    split at h
    next hmem =>
      have hsome := Std.ExtTreeMap.mem_iff_isSome_getElem?.mp hmem
      obtain ⟨id, hid⟩ := Option.isSome_iff_exists.mp hsome
      simpa [deleteRecursive, hid] using h
    next => contradiction
  next items idx =>
    split at h
    next hlt => simpa [deleteRecursive, hlt] using h
    next => contradiction
  next => contradiction

theorem deleteRecursive_cons {c : PathComponent} {rest : List PathComponent}
    {id : Id} {child newChild : Object Id} (hrest : rest ≠ [])
    (hid : childIdAt current c = some id) (hget : store.get id = some child)
    (hrec : deleteRecursive store rest (depth + 1) child =
      .ok (newChild, store'))
    (hnew : replaceChild current c newChild.id = some new) :
    deleteRecursive store (c :: rest) depth current =
      .ok (new, store'.put newChild) := by
  have hne : rest.isEmpty = false := by simpa using hrest
  have hget := require_eq_ok_iff.mpr hget
  unfold replaceChild at hnew
  split at hnew
  next entries key =>
    have hid : entries[key]? = some id := hid
    simpa [deleteRecursive, hid, hne, hget, hrec] using hnew
  next items idx =>
    have hid : items[idx]? = some id := hid
    split at hnew
    next hlt => simpa [deleteRecursive, hid, hne, hget, hrec] using hnew
    next => contradiction
  next key => simp [childIdAt] at hid
  next => contradiction

theorem deleteRecursive_le
    (h : deleteRecursive store comps depth current = .ok (new, store')) :
    store ≤ store' := by
  induction comps generalizing depth current new store' with
  | nil => simp [deleteRecursive_nil] at h
  | cons c rest ih =>
      rcases deleteRecursive_cons_eq_ok h with
        ⟨-, -, rfl⟩ | ⟨id, child, newChild, store'', -, -, -, hrec, -, rfl⟩
      · exact le_refl _
      · exact (ih hrec).trans (ObjectStore.le_put store'' newChild)

/-- Deleting at `comps` moves the element that `path` leads through. -/
def ShiftsPath (comps path : List PathComponent) : Prop :=
  ∃ pre c c' post, comps = pre ++ [c] ∧ path = pre ++ c' :: post ∧
    ShiftsChild c c'

theorem ShiftsPath.cons {comps path : List PathComponent} (c : PathComponent)
    (h : ShiftsPath comps path) : ShiftsPath (c :: comps) (c :: path) := by
  obtain ⟨pre, d, d', post, rfl, rfl, hshift⟩ := h
  exact ⟨c :: pre, d, d', post, rfl, rfl, hshift⟩

theorem deleteRecursive_lookup {path : List PathComponent}
    (h : deleteRecursive store comps depth current = .ok (new, store'))
    (hview : store' ≤ view) (hdisjoint : PathsDisjoint comps path)
    (hshift : ¬ShiftsPath comps path) :
    lookup view new path = lookup view current path := by
  induction comps generalizing depth current new store' path with
  | nil => exact absurd List.nil_prefix hdisjoint.1
  | cons c rest ih =>
      cases path with
      | nil => exact absurd List.nil_prefix hdisjoint.2
      | cons d path =>
          rcases deleteRecursive_cons_eq_ok h with
            ⟨rfl, hnew, -⟩ |
              ⟨id, child, newChild, store'', -, hid, hget, hrec, hnew, rfl⟩
          · have hne : c ≠ d := by
              rintro rfl
              exact hdisjoint.of_cons.1 List.nil_prefix
            have hcd : ¬ShiftsChild c d := fun hs =>
              hshift ⟨[], c, d, path, rfl, rfl, hs⟩
            exact lookup_eq_of_childIdAt_eq (childIdAt_removeChild hnew hne hcd)
          · by_cases hcd : c = d
            · subst hcd
              have hrest := hdisjoint.of_cons
              have hstored : view.get newChild.id = some newChild :=
                hview _ _ (AddressedMap.get_put_self store'' newChild)
              have hle : store ≤ view := (deleteRecursive_le h).trans hview
              have hlookup : lookup view newChild path = lookup view child path :=
                ih hrec ((ObjectStore.le_put store'' newChild).trans hview) hrest
                  fun hs => hshift (hs.cons c)
              cases path with
              | nil => exact absurd List.nil_prefix hrest.2
              | cons e path =>
                  have hc := childIdAt_replaceChild hnew c
                  rw [if_pos rfl] at hc
                  rw [lookup_cons_cons, lookup_cons_cons, hc, hid]
                  simp only [hstored, hlookup, hle id child hget]
            · have hchild := childIdAt_replaceChild hnew d
              rw [if_neg hcd] at hchild
              exact lookup_eq_of_childIdAt_eq hchild

/-- A deletion that succeeds does so, with the same result, in any larger
store. -/
theorem deleteRecursive_mono
    (h : deleteRecursive store comps depth current = .ok (new, store'))
    (hle : store ≤ bigger) :
    ∃ bigger', deleteRecursive bigger comps depth current =
      .ok (new, bigger') ∧ store' ≤ bigger' := by
  induction comps generalizing depth current new store' with
  | nil => simp [deleteRecursive_nil] at h
  | cons c rest ih =>
      rcases deleteRecursive_cons_eq_ok h with
        ⟨rfl, hnew, rfl⟩ |
          ⟨id, child, newChild, store'', hrest, hid, hget, hrec, hnew, rfl⟩
      · exact ⟨bigger, deleteRecursive_last hnew, hle⟩
      · obtain ⟨bigger', hrec', hle'⟩ := ih hrec
        exact ⟨bigger'.put newChild,
          deleteRecursive_cons hrest hid (hle id child hget) hrec' hnew,
          AddressedMap.put_mono hle' newChild⟩

/-! ## Whole writes -/

theorem treeSet_eq_ok
    (h : treeSet store root path value = (.ok newRoot, store')) :
    (path.components = [] ∧ newRoot = value.id ∧ store' = store.put value) ∨
      ∃ rootObj new store'',
        path.components ≠ [] ∧ (store.put value).get root = some rootObj ∧
        setRecursive (store.put value) value.id path.components 0 rootObj =
          .ok (new, store'') ∧
        newRoot = new.id ∧ store' = store''.put new := by
  unfold treeSet at h
  simp only at h
  split at h
  next hroot =>
    simp only [Prod.mk.injEq, Except.ok.injEq] at h
    exact Or.inl ⟨by simpa [StatePath.isRoot] using hroot, h.1.symm, h.2.symm⟩
  next hroot =>
    split at h
    next => simp at h
    next new store'' hset =>
      obtain ⟨rootObj, hobj, hset⟩ := Except.bind_eq_ok_iff.mp hset
      simp only [Prod.mk.injEq, Except.ok.injEq] at h
      exact Or.inr ⟨rootObj, new, store'', by simpa [StatePath.isRoot] using hroot,
        require_eq_ok_iff.mp hobj, hset, h.1.symm, h.2.symm⟩

theorem treeDelete_eq_ok
    (h : treeDelete store root path = (.ok newRoot, store')) :
    (path.components = [] ∧ newRoot = (Object.emptyMap : Object Id).id ∧
        store' = store.put Object.emptyMap) ∨
      ∃ rootObj new store'',
        path.components ≠ [] ∧ store.get root = some rootObj ∧
        deleteRecursive store path.components 0 rootObj = .ok (new, store'') ∧
        newRoot = new.id ∧ store' = store''.put new := by
  unfold treeDelete at h
  split at h
  next hroot =>
    simp only [Prod.mk.injEq, Except.ok.injEq] at h
    exact Or.inl ⟨by simpa [StatePath.isRoot] using hroot, h.1.symm, h.2.symm⟩
  next hroot =>
    split at h
    next => simp at h
    next new store'' hdel =>
      obtain ⟨rootObj, hobj, hdel⟩ := Except.bind_eq_ok_iff.mp hdel
      simp only [Prod.mk.injEq, Except.ok.injEq] at h
      exact Or.inr ⟨rootObj, new, store'', by simpa [StatePath.isRoot] using hroot,
        require_eq_ok_iff.mp hobj, hdel, h.1.symm, h.2.symm⟩

theorem le_treeSet (store : ObjectStore Id) (root : Id) (path : StatePath)
    (value : Object Id) : store ≤ (treeSet store root path value).2 := by
  have hvalue := ObjectStore.le_put store value
  unfold treeSet
  simp only
  split
  · exact hvalue
  · split
    next => exact hvalue
    next new store' hset =>
      obtain ⟨rootObj, -, hset⟩ := Except.bind_eq_ok_iff.mp hset
      exact (hvalue.trans (setRecursive_le hset)).trans
        (ObjectStore.le_put store' new)

theorem le_treeDelete (store : ObjectStore Id) (root : Id) (path : StatePath) :
    store ≤ (treeDelete store root path).2 := by
  unfold treeDelete
  split
  · exact ObjectStore.le_put store _
  · split
    next => exact le_refl _
    next new store' hdel =>
      obtain ⟨rootObj, -, hdel⟩ := Except.bind_eq_ok_iff.mp hdel
      exact (deleteRecursive_le hdel).trans (ObjectStore.le_put store' new)

theorem treeSet_mono (h : treeSet store root path value = (.ok newRoot, store'))
    (hle : store ≤ bigger) :
    (treeSet bigger root path value).1 = .ok newRoot := by
  rcases treeSet_eq_ok h with
    ⟨hroot, rfl, -⟩ | ⟨rootObj, new, store'', hroot, hobj, hset, rfl, -⟩
  · simp [treeSet, StatePath.isRoot, hroot]
  · have hle' := AddressedMap.put_mono hle value
    obtain ⟨bigger', hset', -⟩ := setRecursive_mono hset hle'
    have hobj' := require_eq_ok_iff.mpr (hle' root rootObj hobj)
    simp [treeSet, StatePath.isRoot, hroot, hobj', hset']

theorem treeDelete_mono (h : treeDelete store root path = (.ok newRoot, store'))
    (hle : store ≤ bigger) : (treeDelete bigger root path).1 = .ok newRoot := by
  rcases treeDelete_eq_ok h with
    ⟨hroot, rfl, -⟩ | ⟨rootObj, new, store'', hroot, hobj, hdel, rfl, -⟩
  · simp [treeDelete, StatePath.isRoot, hroot]
  · obtain ⟨bigger', hdel', -⟩ := deleteRecursive_mono hdel hle
    have hobj' := require_eq_ok_iff.mpr (hle root rootObj hobj)
    simp [treeDelete, StatePath.isRoot, hroot, hobj', hdel']

theorem idAt_of_get {o : Object Id} {path : List PathComponent}
    (hne : path ≠ []) (h : store.get root = some o) :
    idAt store root path = lookup store o path := by
  simp [idAt, hne, h]

theorem treeSet_idAt (h : treeSet store root path value = (.ok newRoot, store'))
    (hview : store' ≤ view) (hdisjoint : PathsDisjoint path.components q) :
    idAt view newRoot q = idAt view root q := by
  rcases treeSet_eq_ok h with
    ⟨hroot, -, -⟩ | ⟨rootObj, new, store'', hroot, hobj, hset, rfl, rfl⟩
  · rw [hroot] at hdisjoint
    exact absurd List.nil_prefix hdisjoint.1
  · have hq : q ≠ [] := by
      rintro rfl
      exact hdisjoint.2 List.nil_prefix
    have hlast := (ObjectStore.le_put store'' new).trans hview
    have hold : view.get root = some rootObj :=
      hlast _ _ (setRecursive_le hset _ _ hobj)
    have hnew : view.get new.id = some new :=
      hview _ _ (AddressedMap.get_put_self store'' new)
    rw [idAt_of_get hq hold, idAt_of_get hq hnew]
    exact setRecursive_lookup hset hlast hdisjoint

theorem treeDelete_idAt (h : treeDelete store root path = (.ok newRoot, store'))
    (hview : store' ≤ view) (hdisjoint : PathsDisjoint path.components q)
    (hshift : ¬ShiftsPath path.components q) :
    idAt view newRoot q = idAt view root q := by
  rcases treeDelete_eq_ok h with
    ⟨hroot, -, -⟩ | ⟨rootObj, new, store'', hroot, hobj, hdel, rfl, rfl⟩
  · rw [hroot] at hdisjoint
    exact absurd List.nil_prefix hdisjoint.1
  · have hq : q ≠ [] := by
      rintro rfl
      exact hdisjoint.2 List.nil_prefix
    have hlast := (ObjectStore.le_put store'' new).trans hview
    have hold : view.get root = some rootObj :=
      hlast _ _ (deleteRecursive_le hdel _ _ hobj)
    have hnew : view.get new.id = some new :=
      hview _ _ (AddressedMap.get_put_self store'' new)
    rw [idAt_of_get hq hold, idAt_of_get hq hnew]
    exact deleteRecursive_lookup hdel hlast hdisjoint hshift

end AgentStateGraph
