import AgentStateGraph.Tree.Maps

/-!
# The laws of reading and writing trees

A value set at a path is read back there and nothing else changes; setting
twice is setting the last value; sets at disjoint paths commute; deleting a key
that was just added gives back the tree there was.  Trees are compared by their
root ids, so every sibling has to be the same object.
-/

namespace AgentStateGraph

variable {Id : Type} [Digest Id]

/-! ## One level -/

section Levels

variable {o o' o'' : Object Id} {c d : PathComponent} {x y : Id}

omit [Digest Id] in
/-- The last of two replacements of one child counts. -/
theorem replaceChild_twice (h : replaceChild o c x = some o') :
    ∃ new, replaceChild o' c y = some new ∧ replaceChild o c y = some new := by
  unfold replaceChild at h
  split at h
  next entries key =>
    obtain rfl := Option.some.inj h
    refine ⟨Object.map (entries.insert key y), ?_, rfl⟩
    have heq : (entries.insert key x).insert key y = entries.insert key y := by
      apply Std.ExtTreeMap.ext_getElem?
      intro k
      simp only [Std.ExtTreeMap.getElem?_insert]
      split <;> rfl
    simp only [Object.map, replaceChild, heq]
  next items idx =>
    split at h
    next hlt =>
      obtain rfl := Option.some.inj h
      refine ⟨Object.list (items.set idx y), ?_, ?_⟩
      · simp [Object.list, replaceChild, hlt]
      · simp [replaceChild, hlt]
    next => contradiction
  next key =>
    obtain rfl := Option.some.inj h
    refine ⟨Object.map ((∅ : BTreeMap String Id).insert key y), ?_, rfl⟩
    have heq : ((∅ : BTreeMap String Id).insert key x).insert key y =
        (∅ : BTreeMap String Id).insert key y := by
      apply Std.ExtTreeMap.ext_getElem?
      intro k
      simp only [Std.ExtTreeMap.getElem?_insert]
      split <;> rfl
    simp only [Object.map, replaceChild, heq]
  next => contradiction

omit [Digest Id] in
/-- Replacements of different children commute. -/
theorem replaceChild_comm (hne : c ≠ d) (hc : replaceChild o c x = some o')
    (hd : replaceChild o d y = some o'') :
    ∃ new, replaceChild o' d y = some new ∧ replaceChild o'' c x = some new := by
  have hinsert : ∀ (entries : BTreeMap String Id) {k l : String}, k ≠ l →
      (entries.insert k x).insert l y = (entries.insert l y).insert k x := by
    intro entries k l hkl
    apply Std.ExtTreeMap.ext_getElem?
    intro key
    simp only [Std.ExtTreeMap.getElem?_insert, compare_eq_iff_eq]
    split
    next hl =>
      subst hl
      rw [if_neg hkl]
    next => rfl
  rcases c with key | idx <;> rcases d with key' | idx' <;>
    rcases o with (_ | _ | _ | _ | _ | _ | _) | (entries | items | items) <;>
    simp only [replaceChild, reduceCtorEq] at hc hd
  case key.key.atom.null =>
    obtain rfl := Option.some.inj hc
    obtain rfl := Option.some.inj hd
    have hkl : key ≠ key' := fun h => hne (by rw [h])
    exact ⟨_, rfl, by simp only [Object.map, replaceChild, hinsert _ hkl]⟩
  case key.key.node.map =>
    obtain rfl := Option.some.inj hc
    obtain rfl := Option.some.inj hd
    have hkl : key ≠ key' := fun h => hne (by rw [h])
    exact ⟨_, rfl, by simp only [Object.map, replaceChild, hinsert _ hkl]⟩
  case index.index.node.list =>
    have hij : idx ≠ idx' := fun h => hne (by rw [h])
    split at hc <;> [skip; contradiction]
    split at hd <;> [skip; contradiction]
    obtain rfl := Option.some.inj hc
    obtain rfl := Option.some.inj hd
    refine ⟨Object.list ((items.set idx x).set idx' y), ?_, ?_⟩
    · simp [Object.list, replaceChild, *]
    · simp [Object.list, replaceChild, List.set_comm _ _ hij, *]

omit [Digest Id] in
/-- Putting the old child back gives the old object. -/
theorem replaceChild_back (h : replaceChild o c x = some o')
    (hold : childIdAt o c = some y) : replaceChild o' c y = some o := by
  rcases c with key | idx <;>
    rcases o with (_ | _ | _ | _ | _ | _ | _) | (entries | items | items) <;>
    simp only [replaceChild, childIdAt, reduceCtorEq] at h hold
  case key.node.map =>
    obtain rfl := Option.some.inj h
    have heq : (entries.insert key x).insert key y = entries := by
      apply Std.ExtTreeMap.ext_getElem?
      intro k
      simp only [Std.ExtTreeMap.getElem?_insert, compare_eq_iff_eq]
      split
      next hk => rw [← hk, hold]
      next => rfl
    simp only [Object.map, replaceChild, heq]
  case index.node.list =>
    split at h <;> [skip; contradiction]
    next hlt =>
      obtain rfl := Option.some.inj h
      have heq : (items.set idx x).set idx y = items := by
        rw [List.set_set]
        apply List.ext_getElem?
        intro i
        rw [List.getElem?_set]
        split
        next hi => rw [← hi, hold]
        next => rfl
      simp [Object.list, replaceChild, hlt, heq]

omit [Digest Id] in
/-- Taking out a key that was not there before it was put in. -/
theorem removeChild_insert {entries : BTreeMap String Id} {key : String}
    (hnone : entries[key]? = none) :
    removeChild (Object.map (entries.insert key x)) (.key key) =
      some (Object.map entries) := by
  have heq : (entries.insert key x).erase key = entries := by
    apply Std.ExtTreeMap.ext_getElem?
    intro k
    rw [Std.ExtTreeMap.getElem?_erase, Std.ExtTreeMap.getElem?_insert]
    simp only [compare_eq_iff_eq]
    split
    next hk => rw [← hk, hnone]
    next => rfl
  simp [Object.map, removeChild, heq]

end Levels

/-! ## Writes to a complete tree -/

section

variable {store view store' : ObjectStore Id} {valueId : Id} {depth : ℕ}
  {current new : Object Id} {path : StatePath}

theorem setRecursive_complete {bigger bigger' : ObjectStore Id}
    {comps : List PathComponent} (hle : store ≤ bigger) (hne : comps ≠ [])
    (hcomplete : CompleteBelow store current)
    (h : setRecursive bigger valueId comps depth current = .ok (new, bigger')) :
    ∃ store', setRecursive store valueId comps depth current =
      .ok (new, store') := by
  induction comps generalizing depth current new bigger' with
  | nil => exact absurd rfl hne
  | cons c rest ih =>
      rcases setRecursive_cons_eq_ok h with
        ⟨rfl, hnew, -⟩ | ⟨child, newChild, _, hrest, hfor, hrec, hnew, -⟩
      · exact ⟨store, setRecursive_last hnew⟩
      · rcases hfor with ⟨hnone, rfl⟩ | ⟨id, hid, hget⟩
        · have hempty : CompleteBelow store (Object.emptyMap : Object Id) := by
            intro x hx
            obtain ⟨key, hkey⟩ := Object.exists_getElem?_of_mem_childIds hx
            simp at hkey
          obtain ⟨store', hrec'⟩ := ih hrest hempty hrec
          exact ⟨_, setRecursive_cons hrest (Or.inl ⟨hnone, rfl⟩) hrec' hnew⟩
        · have hstored : store.Complete id :=
            hcomplete id (mem_childIds_of_childIdAt hid)
          have hget' : store.get id = some child := by
            obtain ⟨o, ho⟩ := hstored.exists_get
            have hsame := hle _ _ ho
            rw [hget] at hsame
            rwa [Option.some.inj hsame]
          obtain ⟨store', hrec'⟩ :=
            ih hrest (completeBelow_of_get hstored hget') hrec
          exact ⟨_, setRecursive_cons hrest (Or.inr ⟨id, hid, hget'⟩) hrec'
            hnew⟩

/-! ## Setting twice -/

theorem childForSet_mono (hle : store ≤ view) {child : Object Id}
    {c : PathComponent}
    (h : childIdAt current c = none ∧ child = Object.emptyMap ∨
      ∃ id, childIdAt current c = some id ∧ store.get id = some child) :
    childIdAt current c = none ∧ child = Object.emptyMap ∨
      ∃ id, childIdAt current c = some id ∧ view.get id = some child :=
  h.imp_right fun ⟨id, hid, hget⟩ => ⟨id, hid, hle id child hget⟩

/-- After a write, the child it wrote is found where it was put. -/
theorem childForSet_written {newChild : Object Id} {c : PathComponent}
    (hnew : replaceChild current c newChild.id = some new)
    (hstored : view.get newChild.id = some newChild) :
    childIdAt new c = none ∧ newChild = Object.emptyMap ∨
      ∃ id, childIdAt new c = some id ∧ view.get id = some newChild := by
  refine Or.inr ⟨newChild.id, ?_, hstored⟩
  rw [childIdAt_replaceChild hnew, if_pos rfl]

/-- A second write to a path where one succeeded succeeds as well, and makes
what it would have made without the first. -/
theorem setRecursive_twice {store store' first view : ObjectStore Id}
    {valueId valueId' : Id} {comps : List PathComponent} {depth : ℕ}
    {current new : Object Id} (hne : comps ≠ [])
    (h : setRecursive store valueId comps depth current = .ok (new, store'))
    (hfirst : store ≤ first) (hview : store' ≤ view) :
    ∃ new' first' view',
      setRecursive first valueId' comps depth current = .ok (new', first') ∧
      setRecursive view valueId' comps depth new = .ok (new', view') := by
  induction comps generalizing depth current new store' with
  | nil => exact absurd rfl hne
  | cons c rest ih =>
      rcases setRecursive_cons_eq_ok h with
        ⟨rfl, hnew, -⟩ | ⟨child, newChild, store'', hrest, hchild, hrec, hnew, rfl⟩
      · obtain ⟨new', hagain, honce⟩ := replaceChild_twice hnew
        exact ⟨new', first, view, setRecursive_last honce,
          setRecursive_last hagain⟩
      · have hbelow : store'' ≤ view :=
          (ObjectStore.le_put store'' newChild).trans hview
        obtain ⟨newChild', first', view', honceRec, hagainRec⟩ :=
          ih hrest hrec hbelow
        obtain ⟨new', hagain, honce⟩ := replaceChild_twice hnew
        have hstored : view.get newChild.id = some newChild :=
          hview _ _ (AddressedMap.get_put_self store'' newChild)
        exact ⟨new', _, _,
          setRecursive_cons hrest (childForSet_mono hfirst hchild) honceRec
            honce,
          setRecursive_cons hrest (childForSet_written hnew hstored) hagainRec
            hagain⟩

/-! ## Setting at two places -/

theorem setRecursive_elsewhere {c : PathComponent} {rest : List PathComponent}
    {other : Object Id}
    (h : setRecursive store valueId (c :: rest) depth current =
      .ok (new, store')) (hview : store ≤ view)
    (hchild : childIdAt other c = childIdAt current c) :
    ∃ x, replaceChild current c x = some new ∧
      ∀ new', replaceChild other c x = some new' →
        ∃ view', setRecursive view valueId (c :: rest) depth other =
          .ok (new', view') := by
  rcases setRecursive_cons_eq_ok h with
    ⟨rfl, hnew, -⟩ | ⟨child, newChild, store'', hrest, hfor, hrec, hnew, -⟩
  · exact ⟨valueId, hnew, fun new' hnew' => ⟨view, setRecursive_last hnew'⟩⟩
  · obtain ⟨view', hrec', -⟩ := setRecursive_mono hrec hview
    have hfor' := childForSet_mono hview hfor
    rw [← hchild] at hfor'
    exact ⟨newChild.id, hnew, fun new' hnew' =>
      ⟨_, setRecursive_cons hrest hfor' hrec' hnew'⟩⟩

/-- Two writes to disjoint paths that both succeed can follow one another in
either order, with the same result. -/
theorem setRecursive_comm {sp sq viewP viewQ : ObjectStore Id}
    {valueP valueQ : Id} {ps qs : List PathComponent} {newP newQ : Object Id}
    (hdisjoint : PathsDisjoint ps qs)
    (hp : setRecursive store valueP ps depth current = .ok (newP, sp))
    (hq : setRecursive store valueQ qs depth current = .ok (newQ, sq))
    (hviewP : sp ≤ viewP) (hviewQ : sq ≤ viewQ) :
    ∃ new tp tq,
      setRecursive viewP valueQ qs depth newP = .ok (new, tp) ∧
      setRecursive viewQ valueP ps depth newQ = .ok (new, tq) := by
  induction ps generalizing qs depth current newP newQ sp sq with
  | nil => exact absurd List.nil_prefix hdisjoint.1
  | cons c ps ih =>
      cases qs with
      | nil => exact absurd List.nil_prefix hdisjoint.2
      | cons d qs =>
          by_cases hcd : c = d
          · subst hcd
            have hrest := hdisjoint.of_cons
            rcases setRecursive_cons_eq_ok hp with
              ⟨rfl, -, -⟩ | ⟨childP, newChildP, sp', hps, hchildP, hrecP, hnewP, rfl⟩
            · exact absurd List.nil_prefix hrest.1
            rcases setRecursive_cons_eq_ok hq with
              ⟨rfl, -, -⟩ | ⟨childQ, newChildQ, sq', hqs, hchildQ, hrecQ, hnewQ, rfl⟩
            · exact absurd List.nil_prefix hrest.2
            have hsame : childP = childQ := by
              rcases hchildP with ⟨hnone, rfl⟩ | ⟨id, hid, hget⟩ <;>
                rcases hchildQ with ⟨hnone', rfl⟩ | ⟨id', hid', hget'⟩ <;>
                simp_all
            subst hsame
            obtain ⟨newChild, tp, tq, hthenQ, hthenP⟩ := ih hrest hrecP hrecQ
              ((ObjectStore.le_put sp' newChildP).trans hviewP)
              ((ObjectStore.le_put sq' newChildQ).trans hviewQ)
            obtain ⟨new, hagainP, honce⟩ := replaceChild_twice hnewP
            obtain ⟨new', hagainQ, honce'⟩ := replaceChild_twice hnewQ
            obtain rfl : new = new' :=
              Option.some.inj (honce.symm.trans honce')
            have hstoredP : viewP.get newChildP.id = some newChildP :=
              hviewP _ _ (AddressedMap.get_put_self sp' newChildP)
            have hstoredQ : viewQ.get newChildQ.id = some newChildQ :=
              hviewQ _ _ (AddressedMap.get_put_self sq' newChildQ)
            exact ⟨new, _, _,
              setRecursive_cons hqs (childForSet_written hnewP hstoredP) hthenQ
                hagainP,
              setRecursive_cons hps (childForSet_written hnewQ hstoredQ) hthenP
                hagainQ⟩
          · have hchildP : childIdAt newQ c = childIdAt current c := by
              obtain ⟨y, hy, -⟩ :=
                setRecursive_elsewhere hq (le_refl store) (Eq.refl (childIdAt current d))
              rw [childIdAt_replaceChild hy, if_neg (Ne.symm hcd)]
            have hchildQ : childIdAt newP d = childIdAt current d := by
              obtain ⟨x, hx, -⟩ :=
                setRecursive_elsewhere hp (le_refl store) (Eq.refl (childIdAt current c))
              rw [childIdAt_replaceChild hx, if_neg hcd]
            obtain ⟨x, hx, hthenP⟩ := setRecursive_elsewhere hp
              ((setRecursive_le hq).trans hviewQ) hchildP
            obtain ⟨y, hy, hthenQ⟩ := setRecursive_elsewhere hq
              ((setRecursive_le hp).trans hviewP) hchildQ
            obtain ⟨new, hnewP, hnewQ⟩ := replaceChild_comm hcd hx hy
            obtain ⟨tp, htp⟩ := hthenQ new hnewP
            obtain ⟨tq, htq⟩ := hthenP new hnewQ
            exact ⟨new, tp, tq, htp, htq⟩

/-! ## Deleting what was added -/

/-- The object at a path below an object. -/
def objectBelow (store : ObjectStore Id) :
    Object Id → List PathComponent → Option (Object Id)
  | o, [] => some o
  | o, c :: rest =>
      ((childIdAt o c).bind store.get).bind fun child =>
        objectBelow store child rest

theorem objectAt_cons_eq_some {o target : Object Id} {c : PathComponent}
    {rest : List PathComponent}
    (h : objectBelow store o (c :: rest) = some target) :
    ∃ id child, childIdAt o c = some id ∧ store.get id = some child ∧
      objectBelow store child rest = some target := by
  obtain ⟨child, hchild, hrest⟩ := Option.bind_eq_some_iff.mp h
  obtain ⟨id, hid, hget⟩ := Option.bind_eq_some_iff.mp hchild
  exact ⟨id, child, hid, hget, hrest⟩

theorem deleteRecursive_added {pre : List PathComponent} {key : String}
    {entries : BTreeMap String Id}
    (h : setRecursive store valueId (pre ++ [.key key]) depth current =
      .ok (new, store'))
    (hmap : objectBelow store current pre = some (Object.map entries))
    (hnone : entries[key]? = none) (hview : store' ≤ view) :
    ∃ view', deleteRecursive view (pre ++ [.key key]) depth new =
      .ok (current, view') := by
  induction pre generalizing depth current new store' with
  | nil =>
      obtain rfl := Option.some.inj hmap
      rcases setRecursive_cons_eq_ok h with
        ⟨-, hnew, -⟩ | ⟨_, _, _, hrest, -⟩
      · obtain rfl := Option.some.inj hnew
        exact ⟨view, deleteRecursive_last (removeChild_insert hnone)⟩
      · exact absurd rfl hrest
  | cons c pre ih =>
      obtain ⟨id, child, hid, hget, hbelow⟩ := objectAt_cons_eq_some hmap
      rcases setRecursive_cons_eq_ok h with
        ⟨hrest, -, -⟩ | ⟨child', newChild, store'', hrest, hfor, hrec, hnew, rfl⟩
      · simp at hrest
      · have hchild : child' = child := by
          rcases hfor with ⟨hnone', -⟩ | ⟨id', hid', hget'⟩
          · simp [hid] at hnone'
          · obtain rfl : id' = id := by simpa [hid'] using hid
            simpa [hget'] using hget
        subst hchild
        obtain ⟨view', hdelete⟩ := ih hrec hbelow
          ((ObjectStore.le_put store'' newChild).trans hview)
        have hstored : view.get newChild.id = some newChild :=
          hview _ _ (AddressedMap.get_put_self store'' newChild)
        have hback : replaceChild new c child'.id = some current := by
          rw [ObjectStore.id_eq_of_get hget]
          exact replaceChild_back hnew hid
        have hwritten : childIdAt new c = some newChild.id := by
          rw [childIdAt_replaceChild hnew, if_pos rfl]
        exact ⟨_, deleteRecursive_cons hrest hwritten hstored hdelete hback⟩

theorem objectAt_mono (hle : store ≤ view) {o target : Object Id}
    {path : List PathComponent} (h : objectBelow store o path = some target) :
    objectBelow view o path = some target := by
  induction path generalizing o with
  | nil => exact h
  | cons c rest ih =>
      obtain ⟨id, child, hid, hget, hrest⟩ := objectAt_cons_eq_some h
      simp [objectBelow, hid, hle id child hget, ih hrest]

omit [Digest Id] in
theorem exists_replaceChild {o : Object Id} {c : PathComponent} {y : Id}
    (h : childIdAt o c = some y) (x : Id) :
    ∃ new, replaceChild o c x = some new := by
  rcases c with key | idx <;>
    rcases o with a | (entries | items | items) <;>
    simp only [childIdAt, reduceCtorEq] at h
  case key.node.map => exact ⟨_, rfl⟩
  case index.node.list =>
    have hlt : idx < items.length := (List.getElem?_eq_some_iff.mp h).1
    exact ⟨_, if_pos hlt⟩

theorem exists_setRecursive {store : ObjectStore Id} {valueId : Id}
    {pre : List PathComponent} {key : String} {depth : ℕ}
    {current : Object Id} {entries : BTreeMap String Id}
    (hmap : objectBelow store current pre = some (Object.map entries)) :
    ∃ new store', setRecursive store valueId (pre ++ [.key key]) depth current =
      .ok (new, store') := by
  induction pre generalizing depth current with
  | nil =>
      obtain rfl := Option.some.inj hmap
      exact ⟨_, store, setRecursive_last rfl⟩
  | cons c pre ih =>
      obtain ⟨id, child, hid, hget, hbelow⟩ := objectAt_cons_eq_some hmap
      obtain ⟨newChild, store', hrec⟩ := @ih (depth + 1) child hbelow
      obtain ⟨new, hnew⟩ := exists_replaceChild hid newChild.id
      exact ⟨new, _,
        setRecursive_cons (by simp) (Or.inr ⟨id, hid, hget⟩) hrec hnew⟩

/-! ## Reads at other paths -/

/-- A path leads through a container that a set at `ps` creates: nothing, or a
null, stands where the two part. -/
def LeadsThroughCreated (store : ObjectStore Id) (o : Object Id)
    (ps qs : List PathComponent) : Prop :=
  ∃ pre c ps' d qs', ps = pre ++ c :: ps' ∧ qs = pre ++ d :: qs' ∧
    ∀ target, objectBelow store o pre = some target → target = .atom .null

theorem LeadsThroughCreated.cons {store : ObjectStore Id} {o child : Object Id}
    {c : PathComponent} {id : Id} {ps qs : List PathComponent}
    (hid : childIdAt o c = some id) (hget : store.get id = some child)
    (h : LeadsThroughCreated store child ps qs) :
    LeadsThroughCreated store o (c :: ps) (c :: qs) := by
  obtain ⟨pre, d, ps', e, qs', rfl, rfl, hnull⟩ := h
  refine ⟨c :: pre, d, ps', e, qs', rfl, rfl, ?_⟩
  intro target htarget
  apply hnull
  simpa [objectBelow, hid, hget] using htarget

theorem navigate_replaceChild {o o' : Object Id} {c d : PathComponent} {x : Id}
    (h : replaceChild o c x = some o') (hnull : o ≠ .atom .null) (hne : c ≠ d) :
    navigate store path o' d = navigate store path o d := by
  have hchild := childIdAt_replaceChild h d
  rw [if_neg hne] at hchild
  unfold replaceChild at h
  split at h
  next entries key =>
    obtain rfl := Option.some.inj h
    cases d with
    | key k =>
        simp only [childIdAt, Object.map] at hchild
        simp only [navigate, Object.map, hchild]
    | index i => rfl
  next items idx =>
    split at h
    next hlt =>
      obtain rfl := Option.some.inj h
      cases d with
      | key k => rfl
      | index i =>
          simp only [childIdAt, Object.list] at hchild
          simp only [navigate, Object.list, hchild, List.length_set]
    next => contradiction
  next => exact absurd rfl hnull
  next => contradiction

theorem foldlM_navigate_complete (hle : store ≤ view) {o : Object Id}
    {qs : List PathComponent} (h : CompleteBelow store o) :
    qs.foldlM (navigate view path) o = qs.foldlM (navigate store path) o := by
  induction qs generalizing o with
  | nil => rfl
  | cons d qs ih =>
      have hrequire : ∀ id, childIdAt o d = some id →
          view.require id = store.require id := by
        intro id hid
        obtain ⟨child, hchild⟩ := (h id (mem_childIds_of_childIdAt hid)).exists_get
        rw [require_eq_ok_iff.mpr hchild,
          require_eq_ok_iff.mpr (hle id child hchild)]
      have hnav : navigate view path o d = navigate store path o d := by
        unfold navigate
        split
        next entries key =>
          cases hid : entries[key]? with
          | none => rfl
          | some id => exact hrequire id hid
        next items idx =>
          cases hid : items[idx]? with
          | none => rfl
          | some id => exact hrequire id hid
        all_goals rfl
      rw [List.foldlM_cons, List.foldlM_cons, hnav]
      cases hstep : navigate store path o d with
      | error e => rfl
      | ok child =>
          obtain ⟨id, hid, hget⟩ := navigate_eq_ok_iff.mp hstep
          exact ih fun x hx =>
            (h id (mem_childIds_of_childIdAt hid)).child hget hx

theorem foldlM_navigate_setRecursive {store store' view : ObjectStore Id}
    {valueId : Id} {path : StatePath} {comps qs : List PathComponent}
    {depth : ℕ} {current new : Object Id}
    (h : setRecursive store valueId comps depth current = .ok (new, store'))
    (hview : store' ≤ view) (hcomplete : CompleteBelow store current)
    (hdisjoint : PathsDisjoint comps qs)
    (hcreated : ¬LeadsThroughCreated store current comps qs) :
    qs.foldlM (navigate view path) new =
      qs.foldlM (navigate store path) current := by
  induction comps generalizing depth current new store' qs with
  | nil => exact absurd List.nil_prefix hdisjoint.1
  | cons c rest ih =>
      cases qs with
      | nil => exact absurd List.nil_prefix hdisjoint.2
      | cons d qs =>
          have hle : store ≤ view := (setRecursive_le h).trans hview
          by_cases hcd : c = d
          · subst hcd
            have hrest := hdisjoint.of_cons
            rcases setRecursive_cons_eq_ok h with
              ⟨rfl, -, -⟩ | ⟨child, newChild, store'', -, hfor, hrec, hnew, rfl⟩
            · exact absurd List.nil_prefix hrest.1
            rcases hfor with ⟨hnone, rfl⟩ | ⟨id, hid, hget⟩
            · -- The child was created by the set, and both paths go below it.
              obtain ⟨e, rest, rfl⟩ := List.exists_cons_of_ne_nil
                (fun hnil => hrest.1 (hnil ▸ List.nil_prefix) : rest ≠ [])
              obtain ⟨f, qs, rfl⟩ := List.exists_cons_of_ne_nil
                (fun hnil => hrest.2 (hnil ▸ List.nil_prefix) : qs ≠ [])
              refine absurd ⟨[c], e, rest, f, qs, rfl, rfl, ?_⟩ hcreated
              intro target htarget
              simp [objectBelow, hnone] at htarget
            · have hstored : view.get newChild.id = some newChild :=
                hview _ _ (AddressedMap.get_put_self store'' newChild)
              have hwritten : childIdAt new c = some newChild.id := by
                rw [childIdAt_replaceChild hnew, if_pos rfl]
              have hstepNew : navigate view path new c = .ok newChild :=
                navigate_eq_ok_iff.mpr ⟨_, hwritten, hstored⟩
              have hstep : navigate store path current c = .ok child :=
                navigate_eq_ok_iff.mpr ⟨id, hid, hget⟩
              rw [List.foldlM_cons, List.foldlM_cons, hstepNew, hstep]
              exact ih hrec ((ObjectStore.le_put store'' newChild).trans hview)
                (fun x hx => (hcomplete id
                  (mem_childIds_of_childIdAt hid)).child hget hx)
                hrest (fun hthrough => hcreated (hthrough.cons hid hget))
          · have hnull : current ≠ .atom .null := by
              rintro rfl
              refine hcreated ⟨[], c, rest, d, qs, rfl, rfl, ?_⟩
              intro target htarget
              exact (Option.some.inj htarget).symm
            obtain ⟨x, hx, -⟩ := setRecursive_elsewhere h (le_refl store)
              (Eq.refl (childIdAt current c))
            rw [List.foldlM_cons, navigate_replaceChild hx hnull hcd,
              ← List.foldlM_cons]
            exact foldlM_navigate_complete hle hcomplete

/-! ## Whole trees -/

theorem treeSet_of_setRecursive {root : Id} {value rootObj : Object Id}
    (hne : path.components ≠ [])
    (hroot : (store.put value).get root = some rootObj)
    (h : setRecursive (store.put value) value.id path.components 0 rootObj =
      .ok (new, store')) :
    treeSet store root path value = (.ok new.id, store'.put new) := by
  have hobj := require_eq_ok_iff.mpr hroot
  simp [treeSet, StatePath.isRoot, hne, hobj, h]

theorem treeDelete_of_deleteRecursive {root : Id} {rootObj : Object Id}
    (hne : path.components ≠ []) (hroot : store.get root = some rootObj)
    (h : deleteRecursive store path.components 0 rootObj = .ok (new, store')) :
    treeDelete store root path = (.ok new.id, store'.put new) := by
  have hobj := require_eq_ok_iff.mpr hroot
  simp [treeDelete, StatePath.isRoot, hne, hobj, h]

end

section Trees

variable {store store' : ObjectStore Id} {root newRoot : Id}
  {p q : StatePath} {v w : Object Id}

theorem treeGet_treeSet (h : treeSet store root p v = (.ok newRoot, store')) :
    treeGet store' newRoot p = .ok v := by
  have hle := le_treeSet store root p v
  refine treeGet_eq_ok_iff.mpr
    ⟨v.id, treeSet_idAt_self h (le_refl store'), ?_⟩
  rcases treeSet_eq_ok h with
    ⟨-, -, rfl⟩ | ⟨rootObj, new, store'', -, -, hset, -, rfl⟩
  · exact AddressedMap.get_put_self store v
  · exact ObjectStore.le_put store'' new _ _
      (setRecursive_le hset _ _ (AddressedMap.get_put_self store v))

/-- The path leads through a container that a set at `p` creates. -/
def ThroughCreated (store : ObjectStore Id) (root : Id) (p q : StatePath) :
    Prop :=
  ∃ rootObj, store.get root = some rootObj ∧
    LeadsThroughCreated store rootObj p.components q.components

theorem treeGet_treeSet_disjoint (hcomplete : store.Complete root)
    (h : treeSet store root p v = (.ok newRoot, store'))
    (hdisjoint : PathsDisjoint p.components q.components)
    (hcreated : ¬ThroughCreated store root p q) :
    treeGet store' newRoot q = treeGet store root q := by
  rcases treeSet_eq_ok h with
    ⟨hp, -, -⟩ | ⟨rootObj, new, store'', hp, hobj, hset, rfl, rfl⟩
  · rw [hp] at hdisjoint
    exact absurd List.nil_prefix hdisjoint.1
  · have hput := ObjectStore.le_put store v
    have hroot : store.get root = some rootObj := by
      obtain ⟨o, ho⟩ := hcomplete.exists_get
      have hsame := hput _ _ ho
      rw [hobj] at hsame
      rwa [Option.some.inj hsame]
    have hbelow : CompleteBelow store rootObj :=
      completeBelow_of_get hcomplete hroot
    have hnot : ¬LeadsThroughCreated (store.put v) rootObj p.components
        q.components := by
      rintro ⟨pre, c, ps, d, qs, hps, hqs, hnull⟩
      exact hcreated ⟨rootObj, hroot, pre, c, ps, d, qs, hps, hqs,
        fun target htarget => hnull target (objectAt_mono hput htarget)⟩
    have hfold := @foldlM_navigate_setRecursive _ _ _ _ _ _ q _ _ _ _ _ hset
      (ObjectStore.le_put store'' new) (CompleteBelow.mono hput hbelow)
      hdisjoint hnot
    have hnew : ObjectStore.require (store''.put new) new.id = .ok new :=
      require_eq_ok_iff.mpr (AddressedMap.get_put_self store'' new)
    have hold : store.require root = .ok rootObj := require_eq_ok_iff.mpr hroot
    unfold treeGet
    rw [hnew, hold, Except.ok_bind, Except.ok_bind, hfold]
    exact foldlM_navigate_complete hput hbelow

theorem treeSet_complete (hcomplete : store.Complete root)
    (h : treeSet store root p v = (.ok newRoot, store'))
    (hne : p.components ≠ []) :
    ∃ rootObj new written, store.get root = some rootObj ∧ newRoot = new.id ∧
      setRecursive store v.id p.components 0 rootObj = .ok (new, written) ∧
      written ≤ store' ∧ store'.get newRoot = some new := by
  rcases treeSet_eq_ok h with
    ⟨hnil, -, -⟩ | ⟨rootObj, new, store'', -, hobj, hset, rfl, rfl⟩
  · exact absurd hnil hne
  · have hput := ObjectStore.le_put store v
    have hroot : store.get root = some rootObj := by
      obtain ⟨o, ho⟩ := hcomplete.exists_get
      have hsame := hput _ _ ho
      rw [hobj] at hsame
      rwa [Option.some.inj hsame]
    obtain ⟨written, hwritten⟩ := setRecursive_complete hput hne
      (completeBelow_of_get hcomplete hroot) hset
    obtain ⟨bigger, hbigger, hle⟩ := setRecursive_mono hwritten hput
    obtain rfl : bigger = store'' := by
      rw [hset] at hbigger
      exact (Prod.mk.inj (Except.ok.inj hbigger)).2.symm
    exact ⟨rootObj, new, written, hroot, rfl, hwritten,
      hle.trans (ObjectStore.le_put bigger new),
      AddressedMap.get_put_self bigger new⟩

theorem treeSet_treeSet (hcomplete : store.Complete root)
    (h : treeSet store root p v = (.ok newRoot, store')) :
    ∃ r, (treeSet store' newRoot p w).1 = .ok r ∧
      (treeSet store root p w).1 = .ok r := by
  by_cases hp : p.components = []
  · exact ⟨w.id, by simp [treeSet, StatePath.isRoot, hp],
      by simp [treeSet, StatePath.isRoot, hp]⟩
  · obtain ⟨rootObj, new, written, hroot, rfl, hset, hle, hnew⟩ :=
      treeSet_complete hcomplete h hp
    have hput := ObjectStore.le_put store w
    have hput' := ObjectStore.le_put store' w
    obtain ⟨r, _, _, honce, hagain⟩ := @setRecursive_twice _ _ _ _
      (store.put w) (store'.put w) _ w.id _ _ _ _ hp hset hput
      (hle.trans hput')
    refine ⟨r.id, ?_, ?_⟩
    · rw [treeSet_of_setRecursive hp (hput' _ _ hnew) hagain]
    · rw [treeSet_of_setRecursive hp (hput _ _ hroot) honce]

theorem treeSet_comm {storeP storeQ : ObjectStore Id} {rootP rootQ : Id}
    (hcomplete : store.Complete root)
    (hdisjoint : PathsDisjoint p.components q.components)
    (hp : treeSet store root p v = (.ok rootP, storeP))
    (hq : treeSet store root q w = (.ok rootQ, storeQ)) :
    ∃ r, (treeSet storeP rootP q w).1 = .ok r ∧
      (treeSet storeQ rootQ p v).1 = .ok r := by
  have hpne : p.components ≠ [] := fun hnil =>
    hdisjoint.1 (hnil ▸ List.nil_prefix)
  have hqne : q.components ≠ [] := fun hnil =>
    hdisjoint.2 (hnil ▸ List.nil_prefix)
  obtain ⟨rootObj, newP, writtenP, hroot, rfl, hsetP, hleP, hnewP⟩ :=
    treeSet_complete hcomplete hp hpne
  obtain ⟨rootObj', newQ, writtenQ, hroot', rfl, hsetQ, hleQ, hnewQ⟩ :=
    treeSet_complete hcomplete hq hqne
  obtain rfl : rootObj = rootObj' := Option.some.inj (hroot.symm.trans hroot')
  have hputP := ObjectStore.le_put storeP w
  have hputQ := ObjectStore.le_put storeQ v
  obtain ⟨r, _, _, hthenQ, hthenP⟩ := setRecursive_comm hdisjoint hsetP hsetQ
    (hleP.trans hputP) (hleQ.trans hputQ)
  refine ⟨r.id, ?_, ?_⟩
  · rw [treeSet_of_setRecursive hqne (hputP _ _ hnewP) hthenQ]
  · rw [treeSet_of_setRecursive hpne (hputQ _ _ hnewQ) hthenP]

/-- A map stands at the path, and lacks the key. -/
def LacksKey (store : ObjectStore Id) (root : Id) (pre : List PathComponent)
    (key : String) : Prop :=
  ∃ rootObj entries, store.get root = some rootObj ∧
    objectBelow store rootObj pre = some (Object.map entries) ∧
    entries[key]? = none

theorem treeDelete_treeSet {pre : List PathComponent} {key : String}
    (hp : p.components = pre ++ [.key key]) (h : LacksKey store root pre key)
    (v : Object Id) :
    ∃ r s, treeSet store root p v = (.ok r, s) ∧
      (treeDelete s r p).1 = .ok root := by
  obtain ⟨rootObj, entries, hroot, hmap, hnone⟩ := h
  have hne : p.components ≠ [] := by simp [hp]
  have hput := ObjectStore.le_put store v
  have hmap' := objectAt_mono hput hmap
  obtain ⟨new, written, hset⟩ :=
    @exists_setRecursive _ _ _ v.id pre key 0 rootObj entries hmap'
  obtain ⟨view', hdelete⟩ :=
    deleteRecursive_added hset hmap' hnone (ObjectStore.le_put written new)
  rw [← hp] at hset hdelete
  refine ⟨new.id, written.put new,
    treeSet_of_setRecursive hne (hput _ _ hroot) hset, ?_⟩
  rw [treeDelete_of_deleteRecursive hne
    (AddressedMap.get_put_self written new) hdelete]
  rw [ObjectStore.id_eq_of_get hroot]

end Trees

/-- The laws of a stored tree.  Reads of other paths are the same with their
errors; two sets commute whether or not their parents exist already. -/
structure TreeLaws (store : ObjectStore Id) (root : Id) : Prop where
  get_set : ∀ p v r s, treeSet store root p v = (.ok r, s) →
    treeGet s r p = .ok v
  get_set_disjoint : ∀ p q v r s, treeSet store root p v = (.ok r, s) →
    PathsDisjoint p.components q.components → ¬ThroughCreated store root p q →
    treeGet s r q = treeGet store root q
  set_set : ∀ p v w r s, treeSet store root p v = (.ok r, s) →
    ∃ r', (treeSet s r p w).1 = .ok r' ∧ (treeSet store root p w).1 = .ok r'
  set_comm : ∀ p q v w r s r' s', treeSet store root p v = (.ok r, s) →
    treeSet store root q w = (.ok r', s') →
    PathsDisjoint p.components q.components →
    ∃ both, (treeSet s r q w).1 = .ok both ∧ (treeSet s' r' p v).1 = .ok both
  delete_set : ∀ p pre key v, p.components = pre ++ [.key key] →
    LacksKey store root pre key → ∃ r s, treeSet store root p v = (.ok r, s) ∧
      (treeDelete s r p).1 = .ok root

namespace TreeLaws.Sample

/-- A map with a list and a null in it. -/
def value : Json :=
  .object [("items", .array [.string "x", .string "y"]), ("later", .null)]

def root : ContentKey := (jsonToTree AddressedMap.empty value).1

def store : ObjectStore ContentKey := (jsonToTree AddressedMap.empty value).2

end TreeLaws.Sample

end AgentStateGraph
