import AgentStateGraph.Repo.AgentCalls
import AgentStateGraph.Repo.Agreement

/-!
# The reserved subtree under writes

`/_meta` is guarded by the path of a direct write and by the diff of a
speculation.  The first guard does not see a write to the root path, the
second neither a root that changes its kind nor a change that the diff counts
as none.  Everything else leaves the subtree as the head has it.
-/

namespace AgentStateGraph

variable {Id : Type} [Digest Id]

/-- The component of the reserved subtree. -/
def metaKey : String := "_meta"

/-- The id of the reserved subtree of a state, if it has one. -/
def metaAt (objects : ObjectStore Id) (root : Id) : Option Id :=
  idAt objects root [.key metaKey]

section

variable {objects store : ObjectStore Id} {root : Id} {path : String}
  {p : StatePath}

theorem metaAt_of_get {o : Object Id} (h : objects.get root = some o) :
    metaAt objects root = o.mapEntries[metaKey]? := by
  rw [metaAt, idAt_of_get (by simp) h]
  rcases o with a | (es | xs | xs)
  · simp [lookup, childIdAt, Object.mapEntries]
  · rfl
  · simp [lookup, childIdAt, Object.mapEntries]
  · simp [lookup, childIdAt, Object.mapEntries]

theorem metaAt_of_get_eq_none (h : objects.get root = none) :
    metaAt objects root = none := by
  simp [metaAt, idAt, h]

theorem exists_map_of_metaAt {id : Id} (h : metaAt objects root = some id) :
    ∃ entries, objects.get root = some (Object.map entries) ∧
      entries[metaKey]? = some id := by
  cases hget : objects.get root with
  | none => simp [metaAt_of_get_eq_none hget] at h
  | some o =>
      rw [metaAt_of_get hget] at h
      rcases o with a | (es | xs | xs)
      · simp [Object.mapEntries] at h
      · exact ⟨es, rfl, h⟩
      · simp [Object.mapEntries] at h
      · simp [Object.mapEntries] at h

/-! ## The path guard -/

theorem parse_metaPath :
    StatePath.parse META_PATH_PREFIX = .ok ⟨[.key metaKey]⟩ := by
  decide

theorem pathsDisjoint_of_not_reserved (hp : StatePath.parse path = .ok p)
    (hroot : ¬(path = "" ∨ path = "/"))
    (hreserved : pathIsReserved path = false) :
    PathsDisjoint p.components [.key metaKey] := by
  have hmeta : StatePath.parse META_PATH_PREFIX =
      .ok ⟨[metaKey].map PathComponent.key⟩ := parse_metaPath
  have hprefix := isAtOrUnder_iff_components_isPrefix hmeta (by simp) hp
  have hnot : ¬[PathComponent.key metaKey] <+: p.components := by
    intro h
    have hunder := hprefix.mpr h
    rw [pathIsReserved] at hreserved
    rw [hreserved] at hunder
    contradiction
  refine ⟨?_, hnot⟩
  intro h
  have hne := StatePath.parse_components_ne_nil hp hroot
  obtain ⟨rest, hrest⟩ := h
  cases hcomp : p.components with
  | nil => exact hne hcomp
  | cons c cs =>
      rw [hcomp] at hrest hnot
      simp only [List.cons_append, List.cons.injEq] at hrest
      apply hnot
      rw [hrest.1]
      exact ⟨cs, rfl⟩

theorem not_reserved_of_checkWrite {store : Storage Id}
    {options : CommitOptions} {now : ℤ}
    (hcategory : options.intent.category ≠ .migrate)
    (h : checkWrite store path options now = .ok ()) :
    pathIsReserved path = false := by
  obtain ⟨u, hguard, -⟩ := Except.bind_eq_ok_iff.mp h
  unfold checkMetaGuard at hguard
  split at hguard
  next => contradiction
  next hnot => simpa [hcategory] using hnot

/-! ## The diff guard -/

theorem isAtOrUnder_append {root s : String} (h : isAtOrUnder root s = true)
    (rest : String) : isAtOrUnder root (s ++ "/" ++ rest) = true := by
  rw [isAtOrUnder_iff] at h ⊢
  right
  simp only [String.toList_append]
  rcases h with h | h
  · rw [h]
    exact ⟨rest.toList, by simp⟩
  · exact h.trans ⟨"/".toList ++ rest.toList, by simp⟩

theorem render_append (xs ys : List PathComponent) :
    StatePath.render (xs ++ ys) =
      StatePath.render xs ++ StatePath.render ys := by
  induction xs with
  | nil => simp [StatePath.render]
  | cons c xs ih =>
      cases c with
      | key k => simp [StatePath.render, ih, String.append_assoc]
      | index i => simp [StatePath.render, ih, String.append_assoc]

/-- A path in the reserved subtree, by its text. -/
def ReservedPath (p : StatePath) : Prop :=
  p.components ≠ [] ∧ pathIsReserved p.toString = true

theorem ReservedPath.pushKey (h : ReservedPath p) (key : String) :
    ReservedPath (p.pushKey key) := by
  refine ⟨by simp [StatePath.pushKey], ?_⟩
  have htext : (p.pushKey key).toString = p.toString ++ "/" ++ key := by
    simp [StatePath.toString, StatePath.pushKey, h.1, render_append,
      StatePath.render, String.append_assoc]
  rw [htext]
  exact isAtOrUnder_append h.2 key

theorem ReservedPath.pushIndex (h : ReservedPath p) (i : ℕ) :
    ReservedPath (p.pushIndex i) := by
  refine ⟨by simp [StatePath.pushIndex], ?_⟩
  have htext : (p.pushIndex i).toString =
      p.toString ++ "/" ++ toString i := by
    simp [StatePath.toString, StatePath.pushIndex, h.1, render_append,
      StatePath.render, String.append_assoc]
  rw [htext]
  exact isAtOrUnder_append h.2 _

theorem ReservedPath.not_root (h : ReservedPath p) :
    ¬(p.toString = "/" ∨ p.toString = "") := by
  rintro (hroot | hroot) <;>
    · have hreserved := h.2
      rw [hroot] at hreserved
      revert hreserved
      decide

theorem reserved_of_mem_diffIds {diff : DiffFn Id} {old new : Id}
    (hp : ReservedPath p)
    (hdiff : ∀ o n op, op ∈ diff p o n → pathIsReserved op.candidate = true)
    {op : DiffOp} (h : op ∈ diffIds store diff p old new) :
    pathIsReserved op.candidate = true := by
  unfold diffIds at h
  split at h
  · simp at h
  split at h
  next o n _ _ => exact hdiff o n op h
  next =>
    rw [List.mem_singleton.mp h]
    exact hp.2

theorem reserved_of_mem_diffObjects {fuel : ℕ} {old new : Object Id}
    (hp : ReservedPath p) {op : DiffOp}
    (h : op ∈ diffObjects store fuel p old new) :
    pathIsReserved op.candidate = true := by
  induction fuel generalizing p old new op with
  | zero => simp [diffObjects] at h
  | succ fuel ih =>
      unfold diffObjects at h
      split at h
      · simp at h
      split at h
      next a b =>
        rw [List.mem_singleton.mp h]
        exact hp.2
      next o n =>
        have hkey : ∀ key, pathIsReserved (p.toString ++ "/" ++ key) = true :=
          fun key => isAtOrUnder_append hp.2 key
        simp only [diffMaps, List.mem_append, List.mem_map, List.mem_flatMap]
          at h
        rcases h with (⟨e, -, rfl⟩ | ⟨e, -, rfl⟩) | ⟨e, -, hop⟩
        · simpa [DiffOp.candidate, hp.not_root] using hkey e.1
        · simpa [DiffOp.candidate, hp.not_root] using hkey e.1
        · split at hop
          · exact reserved_of_mem_diffIds (hp.pushKey e.1)
              (fun o n op h => ih (hp.pushKey e.1) h) hop
          · simp at hop
      next o n =>
        simp only [diffLists, List.mem_flatMap] at h
        obtain ⟨i, -, hop⟩ := h
        split at hop
        · exact reserved_of_mem_diffIds (hp.pushIndex i)
            (fun o n op h => ih (hp.pushIndex i) h) hop
        · rw [List.mem_singleton.mp hop]
          exact hp.2
        · rw [List.mem_singleton.mp hop]
          exact hp.2
        · simp at hop
      next o n =>
        simp only [diffSets, List.mem_append, List.mem_map] at h
        rcases h with ⟨x, -, rfl⟩ | ⟨x, -, rfl⟩
        · exact hp.2
        · exact hp.2
      next =>
        rw [List.mem_singleton.mp h]
        exact hp.2

/-- What the diff says about two ids of the reserved subtree. -/
def metaDiff (objects : ObjectStore Id) (baseRoot old new : Id) : List DiffOp :=
  diffIds objects (diffObjects objects (Digest.rank baseRoot))
    (StatePath.root.pushKey metaKey) old new

theorem reservedPath_meta : ReservedPath (StatePath.root.pushKey metaKey) :=
  ⟨by simp [StatePath.pushKey], by decide⟩

theorem metaAt_of_checkSpeculation {spec : Speculation Id}
    {options : CommitOptions} {be ce : BTreeMap String Id}
    (hcategory : options.intent.category ≠ .migrate)
    (h : checkSpeculation objects spec options = .ok ())
    (hbase : objects.get spec.baseRoot = some (Object.map be))
    (hcurrent : objects.get spec.currentRoot = some (Object.map ce)) :
    ce[metaKey]? = be[metaKey]? ∨
      ∃ b c, be[metaKey]? = some b ∧ ce[metaKey]? = some c ∧
        metaDiff objects spec.baseRoot b c = [] := by
  have hnone : reservedPathInDiff
      (diff objects spec.baseRoot spec.currentRoot) = none := by
    unfold checkSpeculation at h
    rw [if_neg hcategory] at h
    split at h
    next => contradiction
    next hnone => exact hnone
  by_cases hroot : spec.baseRoot = spec.currentRoot
  · rw [hroot, hcurrent] at hbase
    left
    have heq : ce = be := by simpa [Object.map] using hbase
    rw [heq]
  by_cases hsame : be = ce
  · exact Or.inl (by rw [hsame])
  have hdiff : diff objects spec.baseRoot spec.currentRoot =
      diffMaps objects (diffObjects objects (Digest.rank spec.baseRoot))
        StatePath.root be ce := by
    simp [diff, hroot, hbase, hcurrent, diffObjects, Object.map,
      Object.partialEq, hsame]
  rw [hdiff] at hnone
  -- no change of the diff is reserved
  have hclear : ∀ op ∈ diffMaps objects
      (diffObjects objects (Digest.rank spec.baseRoot)) StatePath.root be ce,
      pathIsReserved op.candidate = false := by
    intro op hop
    have hall := List.find?_eq_none.mp hnone op.candidate
      (List.mem_map_of_mem hop)
    simpa using hall
  have hmeta : pathIsReserved ("/" ++ metaKey) = true := by decide
  have hslash : StatePath.root.toString = "/" := rfl
  cases hb : be[metaKey]? with
  | none =>
      cases hc : ce[metaKey]? with
      | none => exact Or.inl rfl
      | some c =>
          exfalso
          have hnot : metaKey ∉ be := by
            simp [Std.ExtTreeMap.mem_iff_isSome_getElem?, hb]
          have hop := hclear (.addKey StatePath.root.toString metaKey
            (.ofId objects c)) (by
              simp only [diffMaps, List.mem_append, List.mem_map,
                List.mem_filter]
              refine Or.inl (Or.inr ⟨(metaKey, c), ⟨?_, ?_⟩, rfl⟩)
              · exact Std.ExtTreeMap.mem_toList_iff_getElem?_eq_some.mpr hc
              · simpa using hnot)
          rw [DiffOp.candidate, hslash, if_pos (Or.inl rfl), hmeta] at hop
          contradiction
  | some b =>
      cases hc : ce[metaKey]? with
      | none =>
          exfalso
          have hnot : metaKey ∉ ce := by
            simp [Std.ExtTreeMap.mem_iff_isSome_getElem?, hc]
          have hop := hclear (.removeKey StatePath.root.toString metaKey
            (.ofId objects b)) (by
              simp only [diffMaps, List.mem_append, List.mem_map,
                List.mem_filter]
              refine Or.inl (Or.inl ⟨(metaKey, b), ⟨?_, ?_⟩, rfl⟩)
              · exact Std.ExtTreeMap.mem_toList_iff_getElem?_eq_some.mpr hb
              · simpa using hnot)
          rw [DiffOp.candidate, hslash, if_pos (Or.inl rfl), hmeta] at hop
          contradiction
      | some c =>
          refine Or.inr ⟨b, c, rfl, rfl, ?_⟩
          rw [List.eq_nil_iff_forall_not_mem]
          intro op hop
          have hreserved := reserved_of_mem_diffIds reservedPath_meta
            (fun o n op h => reserved_of_mem_diffObjects reservedPath_meta h) hop
          have hmem := hclear op (by
            simp only [diffMaps, List.mem_append, List.mem_flatMap]
            refine Or.inr ⟨(metaKey, b),
              Std.ExtTreeMap.mem_toList_iff_getElem?_eq_some.mpr hb, ?_⟩
            simp only [hc]
            exact hop)
          rw [hreserved] at hmem
          contradiction

/-! ## Direct writes -/

/-- The new commit's reserved subtree is the one its head has, as far as the
head's state can be read. -/
def MetaKept (before after : Storage Id) (id : Id) : Prop :=
  ∀ c head root o, after.getCommit id = some c → head ∈ c.parents →
    after.rootOf head = some root → before.objects.get root = some o →
    metaAt after.objects c.stateRoot = o.mapEntries[metaKey]?

theorem metaKept_iff (before : Storage Id) {after : Storage Id} {c : Commit Id}
    {head : Id} (hc : after.getCommit c.id = some c)
    (hparents : c.parents = [head]) (hroot : after.rootOf head = some root) :
    MetaKept before after c.id ↔
      ∀ o, before.objects.get root = some o →
        metaAt after.objects c.stateRoot = o.mapEntries[metaKey]? := by
  constructor
  · intro h o ho
    exact h c head root o hc (by simp [hparents]) hroot ho
  · intro h c' head' root' o hc' hhead' hroot' ho
    obtain rfl : c' = c := Option.some.inj (hc'.symm.trans hc)
    obtain rfl : head' = head := by simpa [hparents] using hhead'
    obtain rfl : root' = root := Option.some.inj (hroot'.symm.trans hroot)
    exact h o ho

/-- The root path, in its two spellings. -/
def IsRootPath (path : String) : Prop := path = "" ∨ path = "/"

instance (path : String) : Decidable (IsRootPath path) := by
  unfold IsRootPath
  infer_instance

/-- The given entry is what the head's state has under `/_meta`, as far as the
state can be read. -/
def IsEntryOf (store : Storage Id) (head : Id) (entry : Option Id) : Prop :=
  ∀ root o, store.rootOf head = some root → store.objects.get root = some o →
    entry = o.mapEntries[metaKey]?

theorem parse_isRootPath (h : StatePath.parse path = .ok p)
    (hroot : IsRootPath path) : p.components = [] := by
  rcases hroot with rfl | rfl
  · have hp : StatePath.parse "" = .ok StatePath.root := rfl
    rw [Except.ok.inj (h.symm.trans hp)]
    rfl
  · have hp : StatePath.parse "/" = .ok StatePath.root := rfl
    rw [Except.ok.inj (h.symm.trans hp)]
    rfl

theorem treeSet_metaAt_iff {before store' view : ObjectStore Id} {newRoot : Id}
    {value : Object Id} (hp : StatePath.parse path = .ok p)
    (hreserved : pathIsReserved path = false)
    (h : treeSet store root p value = (.ok newRoot, store'))
    (hbefore : before ≤ view) (hview : store' ≤ view) :
    (∀ o, before.get root = some o →
        metaAt view newRoot = o.mapEntries[metaKey]?) ↔
      ¬IsRootPath path ∨ ∀ o, before.get root = some o →
        value.mapEntries[metaKey]? = o.mapEntries[metaKey]? := by
  by_cases hroot : IsRootPath path
  · obtain ⟨-, rfl, rfl⟩ | ⟨-, -, -, hne, -⟩ := treeSet_eq_ok h
    · have hvalue : metaAt view value.id = value.mapEntries[metaKey]? :=
        metaAt_of_get (hview _ _ (AddressedMap.get_put_self store value))
      simp [hroot, hvalue]
    · exact absurd (parse_isRootPath hp hroot) hne
  · refine iff_of_true ?_ (Or.inl hroot)
    intro o ho
    rw [← metaAt_of_get (hbefore _ _ ho)]
    exact treeSet_idAt h hview
      (pathsDisjoint_of_not_reserved hp hroot hreserved)

theorem not_shiftsPath_key (comps : List PathComponent) (key : String) :
    ¬ShiftsPath comps [.key key] := by
  rintro ⟨pre, c, c', post, -, hpath, i, j, -, rfl, -⟩
  have hmem : PathComponent.index j ∈ [PathComponent.key key] := by
    rw [hpath]
    simp
  simp at hmem

theorem treeDelete_metaAt_iff {before store' view : ObjectStore Id}
    {newRoot : Id} (hp : StatePath.parse path = .ok p)
    (hreserved : pathIsReserved path = false)
    (h : treeDelete store root p = (.ok newRoot, store'))
    (hbefore : before ≤ view) (hview : store' ≤ view) :
    (∀ o, before.get root = some o →
        metaAt view newRoot = o.mapEntries[metaKey]?) ↔
      ¬IsRootPath path ∨ ∀ o, before.get root = some o →
        none = o.mapEntries[metaKey]? := by
  by_cases hroot : IsRootPath path
  · obtain ⟨-, rfl, rfl⟩ | ⟨-, -, -, hne, -⟩ := treeDelete_eq_ok h
    · have hempty : metaAt view (Object.emptyMap : Object Id).id = none := by
        rw [metaAt_of_get (hview _ _
          (AddressedMap.get_put_self store (Object.emptyMap : Object Id)))]
        simp
      simp [hroot, hempty]
    · exact absurd (parse_isRootPath hp hroot) hne
  · refine iff_of_true ?_ (Or.inl hroot)
    intro o ho
    rw [← metaAt_of_get (hbefore _ _ ho)]
    exact treeDelete_idAt h hview
      (pathsDisjoint_of_not_reserved hp hroot hreserved)
      (not_shiftsPath_key _ _)

end

namespace Repository

variable (repo : Repository)

/-- The entry the head of a ref has under `/_meta` is the given one. -/
def HeadHasEntry (store : Storage Id) (refName : String) (entry : Option Id) :
    Prop :=
  ∀ head isBranch, repo.headForWrite store refName = .ok (head, isBranch) →
    IsEntryOf store head entry

variable {store store' : Storage Id} {refName path : String}
  {options : CommitOptions} {now : ℕ → ℤ} {id : Id} {fired : List Escalation}

theorem writeLoop_metaKept_iff {build : BuildRoot Id} (hbuild : build.OnlyAdds)
    (h : repo.writeLoop refName build options now store = (.ok id, store')) :
    ∃ head isBranch root newRoot built,
      repo.headForWrite store refName = .ok (head, isBranch) ∧
      store.rootOf head = some root ∧
      build store root = (.ok newRoot, built) ∧
      store.objects ≤ store'.objects ∧ store'.objects = built.objects ∧
      ∀ before after : Storage Id, store'.commits ≤ after.commits →
        (MetaKept before after id ↔
          ∀ o, before.objects.get root = some o →
            metaAt after.objects newRoot = o.mapEntries[metaKey]?) := by
  obtain ⟨head, isBranch, root, newRoot, built, hhead, hroot, hb, rfl, hlands⟩ :=
    repo.writeLoop_eq_ok hbuild h
  have hadds : store.AddsObjects built := by
    have hadds := hbuild store root
    rwa [hb] at hadds
  refine ⟨head, isBranch, root, newRoot, built, hhead, hroot, hb,
    hadds.le.trans hlands.objects.ge, hlands.objects, ?_⟩
  intro before after hle
  have hcommits := hadds.commits.ge.trans hlands.commits_le
  exact metaKept_iff before (hle _ _ hlands.getCommit) rfl
    (Storage.rootOf_of_le (hcommits.trans hle) hroot)

theorem isEntryOf_iff {head root : Id} {isBranch : Bool} {entry : Option Id}
    (hhead : repo.headForWrite store refName = .ok (head, isBranch))
    (hroot : store.rootOf head = some root) :
    repo.HeadHasEntry store refName entry ↔
      ∀ o, store.objects.get root = some o →
        entry = o.mapEntries[metaKey]? := by
  constructor
  · intro h o ho
    exact h head isBranch hhead root o hroot ho
  · intro h head' isBranch' hhead' root' o hroot' ho
    have heq := Except.ok.inj (hhead'.symm.trans hhead)
    obtain rfl : head' = head := congrArg Prod.fst heq
    obtain rfl : root' = root := Option.some.inj (hroot'.symm.trans hroot)
    exact h o ho

/-- `set`, as part of any later state. -/
theorem set_metaKept_iff {before after : Storage Id} {value : Object Id}
    (hcategory : options.intent.category ≠ .migrate)
    (h : repo.set store refName path value options now = (.ok id, store'))
    (hbefore : before.objects ≤ store.objects)
    (hheads : repo.headForWrite before refName =
      repo.headForWrite store refName) (hroots : before.commits = store.commits)
    (hobjects : store'.objects ≤ after.objects)
    (hcommits : store'.commits ≤ after.commits) :
    MetaKept before after id ↔
      ¬IsRootPath path ∨
        repo.HeadHasEntry before refName value.mapEntries[metaKey]? := by
  unfold set at h
  split at h
  next => simp at h
  next hcheck =>
    split at h
    next => simp at h
    next p hp =>
      obtain ⟨head, isBranch, root, newRoot, built, hhead, hroot, hb, hle, hle',
        hiff⟩ := repo.writeLoop_metaKept_iff (setRoot_onlyAdds p value) h
      have hroot' : before.rootOf head = some root := by
        simpa only [Storage.rootOf, Storage.getCommit, hroots] using hroot
      rw [hiff before after hcommits,
        repo.isEntryOf_iff (hheads.trans hhead) hroot']
      exact treeSet_metaAt_iff (parsePath_eq_ok hp)
        (not_reserved_of_checkWrite hcategory hcheck) (setRoot_eq_ok hb)
        ((hbefore.trans hle).trans hobjects) (hle'.ge.trans hobjects)

theorem delete_metaKept_iff (hcategory : options.intent.category ≠ .migrate)
    (h : repo.delete store refName path options now = (.ok id, store')) :
    MetaKept store store' id ↔
      ¬IsRootPath path ∨ repo.HeadHasEntry store refName none := by
  unfold delete at h
  split at h
  next => simp at h
  next hcheck =>
    split at h
    next => simp at h
    next p hp =>
      obtain ⟨head, isBranch, root, newRoot, built, hhead, hroot, hb, hle, hle',
        hiff⟩ := repo.writeLoop_metaKept_iff (deleteRoot_onlyAdds p) h
      rw [hiff store store' (le_refl _), repo.isEntryOf_iff hhead hroot]
      exact treeDelete_metaAt_iff (parsePath_eq_ok hp)
        (not_reserved_of_checkWrite hcategory hcheck) (deleteRoot_eq_ok hb)
        hle hle'.ge

theorem escalateAfter_eq_ok {id' : Id}
    (h : repo.escalateAfter refName options fired now id store =
      (.ok id', store')) :
    id' = id ∧ store.objects ≤ store'.objects ∧
      store.commits ≤ store'.commits := by
  have hkeeps : KeepsAt [] store
      (repo.escalateAfter refName options fired now id store).2 :=
    repo.escalateAfter_keepsAt refName options fired now id store
  rw [h] at hkeeps
  refine ⟨?_, hkeeps.objects, hkeeps.commits⟩
  unfold escalateAfter at h
  split at h
  · exact (Except.ok.inj (Prod.mk.inj h).1).symm
  · split at h
    · simp at h
    · exact (Except.ok.inj (Prod.mk.inj h).1).symm

theorem setJson_metaKept_iff {value : Json}
    (hcategory : options.intent.category ≠ .migrate)
    (h : repo.setJson store refName path value options fired now =
      (.ok id, store')) :
    MetaKept store store' id ↔
      ¬IsRootPath path ∨ repo.HeadHasEntry store refName
        (jsonToObjects value).1.mapEntries[metaKey]? := by
  unfold setJson at h
  simp only at h
  split at h
  next => simp at h
  next o ho =>
    have hvalue := eq_of_getObject_jsonToTree ho
    subst hvalue
    split at h
    next => simp at h
    next id₁ store₁ hset =>
      obtain ⟨rfl, hobjects, hcommits⟩ := repo.escalateAfter_eq_ok h
      exact repo.set_metaKept_iff hcategory hset
        (le_jsonToTree store.objects value) rfl rfl hobjects hcommits

theorem setJsonCas_metaKept_iff {expectedHead : Id} {value : Json}
    (hcategory : options.intent.category ≠ .migrate)
    (h : repo.setJsonCas store refName expectedHead path value options fired
      now = (.ok id, store')) :
    MetaKept store store' id ↔
      ¬IsRootPath path ∨ IsEntryOf store expectedHead
        (jsonToObjects value).1.mapEntries[metaKey]? := by
  unfold setJsonCas at h
  split at h
  next => simp at h
  next hcheck =>
    split at h
    next => simp at h
    next c built hbuild =>
      split at h
      next => simp at h
      next => simp at h
      next moved hmove =>
        obtain ⟨rfl, hobjects, hcommits⟩ := repo.escalateAfter_eq_ok h
        obtain ⟨root, p, based, hroot, hp, hset, hadds, hc, hcommit⟩ :=
          repo.buildOnExpected_eq_ok hbuild
        obtain ⟨-, -, rfl⟩ | ⟨hfalse, -, -⟩ := repo.advanceRef_eq_ok hmove
        · have hparents : c.parents = [expectedHead] := by
            rw [hc]
            rfl
          have hgrows := hadds.grows.trans hcommit.grows
          rw [metaKept_iff store (hcommits _ _ hcommit.getCommit) hparents
            (Storage.rootOf_of_le (hgrows.commits.trans hcommits) hroot)]
          have hiff := treeSet_metaAt_iff hp
            (not_reserved_of_checkWrite hcategory hcheck) hset
            (((le_jsonToTree store.objects value).trans hgrows.objects).trans
              hobjects) (hcommit.objects.ge.trans hobjects)
          rw [hiff]
          refine or_congr_right ?_
          constructor
          · intro hentry root' o hroot' ho
            obtain rfl : root' = root :=
              Option.some.inj (hroot'.symm.trans hroot)
            exact hentry o ho
          · intro hentry o ho
            exact hentry root o hroot ho
        · simp at hfalse

end Repository

/-! ## Speculations -/

theorem mergeObjects_entry_none (store : ObjectStore Id) (fuel : ℕ)
    (path key : String) {bo oo th : Object Id}
    (hb : bo.mapEntries[key]? = none) (ho : oo.mapEntries[key]? = none)
    (ht : th.mapEntries[key]? = none) :
    (mergeObjects store fuel path bo oo th).1.mapEntries[key]? = none := by
  cases fuel with
  | zero => exact ho
  | succ fuel =>
      by_cases h₁ : oo.partialEq th = true
      · simpa [mergeObjects, h₁] using ho
      by_cases h₂ : bo.partialEq oo = true
      · simpa [mergeObjects, h₁, h₂] using ht
      by_cases h₃ : bo.partialEq th = true
      · simpa [mergeObjects, h₁, h₂, h₃] using ho
      rcases mergeObjects_differ store fuel path h₁ h₂ h₃ with
        ⟨be, oe, te, rfl, rfl, rfl⟩ | ⟨bs, os, ts, rfl, rfl, rfl, hr⟩ |
          ⟨-, hr, -, -⟩
      · obtain ⟨entries, hr, hkeys, -⟩ :=
          mergeObjects_maps store fuel path be oe te
        simp only [Object.mapEntries_map] at hb ho ht
        rw [hr, Object.mapEntries_map, hkeys]
        simp only [hb, ho, ht]
        rfl
      · rw [hr]
        simp [mergeSets, Object.set, Object.mapEntries]
      · rw [hr]
        exact ho

/-- What the guard of a speculation can see: all states are maps, and the diff
sees whatever changed under `/_meta`; or there is nothing under it; or the
head's state cannot be read. -/
def SpeculationGuarded (objects : ObjectStore Id) (spec : Speculation Id)
    (headRoot : Id) : Prop :=
  (∃ be ce he,
    objects.get spec.baseRoot = some (Object.map be) ∧
    objects.get spec.currentRoot = some (Object.map ce) ∧
    objects.get headRoot = some (Object.map he) ∧
    (ce[metaKey]? = be[metaKey]? ∨
      ∀ b c, be[metaKey]? = some b → ce[metaKey]? = some c →
        metaDiff objects spec.baseRoot b c ≠ [])) ∨
  (metaAt objects spec.baseRoot = none ∧
    metaAt objects spec.currentRoot = none ∧
    metaAt objects headRoot = none) ∨
  objects.get headRoot = none

section

variable {objects : ObjectStore Id} {spec : Speculation Id}

/-- A guarded speculation that passed its check changed nothing under
`/_meta`. -/
theorem SpeculationGuarded.cases {headRoot : Id} {options : CommitOptions}
    (h : SpeculationGuarded objects spec headRoot)
    (hcategory : options.intent.category ≠ .migrate)
    (hcheck : checkSpeculation objects spec options = .ok ()) :
    (∃ be ce he,
      objects.get spec.baseRoot = some (Object.map be) ∧
      objects.get spec.currentRoot = some (Object.map ce) ∧
      objects.get headRoot = some (Object.map he) ∧
      be[metaKey]? = ce[metaKey]?) ∨
    (metaAt objects spec.baseRoot = none ∧
      metaAt objects spec.currentRoot = none ∧
      metaAt objects headRoot = none) ∨
    objects.get headRoot = none := by
  rcases h with ⟨be, ce, he, hb, hc, hh, hseen⟩ | hrest
  · refine Or.inl ⟨be, ce, he, hb, hc, hh, ?_⟩
    rcases metaAt_of_checkSpeculation hcategory hcheck hb hc with
      hsame | ⟨b, c, hbm, hcm, hdiff⟩
    · exact hsame.symm
    · rcases hseen with hsame | hseen
      · exact hsame.symm
      · exact absurd hdiff (hseen b c hbm hcm)
  · exact Or.inr hrest

/-- The reserved subtree of a merge of a speculation that left it alone. -/
theorem merged_metaAt {view : ObjectStore Id} {headRoot : Id} {o : Object Id}
    {result : MergeResult Id} {created : List (Object Id)}
    (hmoved : headRoot ≠ spec.baseRoot)
    (hmerge : tryThreeWayMergeCollect objects spec.baseRoot spec.currentRoot
      headRoot = .ok (result, created)) (hle : objects ≤ view)
    (hmerged : ∀ m, (result = .success m ∨ ∃ cs, result = .conflicts m cs) →
      view.get m.id = some m) (hhead : objects.get headRoot = some o)
    (hkept : (∃ be ce he,
        objects.get spec.baseRoot = some (Object.map be) ∧
        objects.get spec.currentRoot = some (Object.map ce) ∧
        objects.get headRoot = some (Object.map he) ∧
        be[metaKey]? = ce[metaKey]?) ∨
      (metaAt objects spec.baseRoot = none ∧
        metaAt objects spec.currentRoot = none ∧
        metaAt objects headRoot = none)) :
    metaAt view result.rootId = o.mapEntries[metaKey]? := by
  have hview : metaAt view headRoot = o.mapEntries[metaKey]? :=
    metaAt_of_get (hle _ _ hhead)
  rcases tryThreeWayMergeCollect_eq_ok hmerge with
    ⟨-, rfl⟩ | ⟨-, hbase, -⟩ | ⟨-, -, hsame, rfl⟩ |
      ⟨-, -, -, bo, oo, th, hbo, hoo, hth, -, -, hresult⟩
  · exact hview
  · exact absurd hbase.symm hmoved
  · rw [hsame]
    exact hview
  · generalize hr : mergeObjects objects (Digest.rank spec.currentRoot + 1) "/"
      bo oo th = r at hresult
    have hroot : result.rootId = r.1.id ∧
        (result = .success r.1 ∨ ∃ cs, result = .conflicts r.1 cs) := by
      rw [hresult]
      split
      · exact ⟨rfl, Or.inl rfl⟩
      · exact ⟨rfl, Or.inr ⟨_, rfl⟩⟩
    rw [hroot.1, metaAt_of_get (hmerged r.1 hroot.2), ← hr]
    obtain rfl : th = o := Option.some.inj (hth.symm.trans hhead)
    rcases hkept with ⟨be, ce, he, hb, hc, hh, hsame⟩ | ⟨hb, hc, hh⟩
    · obtain rfl : bo = Object.map be := Option.some.inj (hbo.symm.trans hb)
      obtain rfl : oo = Object.map ce := Option.some.inj (hoo.symm.trans hc)
      obtain rfl : th = Object.map he := Option.some.inj (hth.symm.trans hh)
      obtain ⟨entries, hentries, hkeys, -⟩ := mergeObjects_maps objects
        (Digest.rank spec.currentRoot) "/" be ce he
      rw [hentries, Object.mapEntries_map, hkeys]
      simp only [hsame]
      rw [mergeKey_of_base_eq_ours]
      rfl
    · rw [metaAt_of_get hbo] at hb
      rw [metaAt_of_get hoo] at hc
      rw [metaAt_of_get hth] at hh
      rw [hh]
      exact mergeObjects_entry_none objects _ _ _ hb hc hh

theorem speculationGuarded_iff {options : CommitOptions}
    (hcategory : options.intent.category ≠ .migrate)
    (hcheck : checkSpeculation objects spec options = .ok ()) :
    SpeculationGuarded objects spec spec.baseRoot ↔
      ∀ o, objects.get spec.baseRoot = some o →
        metaAt objects spec.currentRoot = o.mapEntries[metaKey]? := by
  constructor
  · intro h o ho
    rcases h.cases hcategory hcheck with
      ⟨be, ce, he, hb, hc, -, hsame⟩ | ⟨hb, hc, -⟩ | hnone
    · obtain rfl : o = Object.map be := Option.some.inj (ho.symm.trans hb)
      rw [metaAt_of_get hc, Object.mapEntries_map, Object.mapEntries_map, hsame]
    · rw [hc, ← metaAt_of_get ho, hb]
    · rw [ho] at hnone
      contradiction
  · intro h
    cases hbase : objects.get spec.baseRoot with
    | none => exact Or.inr (Or.inr hbase)
    | some o =>
        have hsame := h o hbase
        rw [← metaAt_of_get hbase] at hsame
        cases hmeta : metaAt objects spec.baseRoot with
        | none => exact Or.inr (Or.inl ⟨hmeta, hsame.trans hmeta, hmeta⟩)
        | some m =>
            obtain ⟨be, hb, hbm⟩ := exists_map_of_metaAt hmeta
            obtain ⟨ce, hc, hcm⟩ := exists_map_of_metaAt (hsame.trans hmeta)
            exact Or.inl ⟨be, ce, be, hb, hc, hb, Or.inl (hcm.trans hbm.symm)⟩

end

namespace Repository

variable (repo : Repository)

theorem commitSpeculation_metaKept {store store' : Storage Id}
    {spec : Speculation Id} {options : CommitOptions} {now : ℕ → ℤ} {id : Id}
    (hcategory : options.intent.category ≠ .migrate)
    (h : repo.commitSpeculation store spec options now = (.ok id, store')) :
    ∃ head isBranch root,
      repo.headForWrite store spec.baseRef = .ok (head, isBranch) ∧
      store.rootOf head = some root ∧
      (SpeculationGuarded store.objects spec root →
        MetaKept store store' id) ∧
      (root = spec.baseRoot → MetaKept store store' id →
        SpeculationGuarded store.objects spec root) := by
  unfold commitSpeculation at h
  split at h
  next => simp at h
  next hcheck =>
    obtain ⟨head, isBranch, root, newRoot, built, hhead, hroot, hb, hle, hsame,
      hiff⟩ := repo.writeLoop_metaKept_iff (speculationRoot_onlyAdds spec) h
    refine ⟨head, isBranch, root, hhead, hroot, ?_⟩
    rw [hiff store store' (le_refl _)]
    unfold speculationRoot at hb
    split at hb
    next hbase =>
      obtain ⟨rfl, rfl⟩ := landAsIs_eq_ok hb
      have hunmoved := speculationGuarded_iff hcategory hcheck
      rw [hsame, hbase]
      exact ⟨hunmoved.mp, fun _ => hunmoved.mpr⟩
    next hmoved =>
      refine ⟨?_, fun hbase => absurd hbase hmoved⟩
      intro hguarded o ho
      have hkept := or_assoc.mpr (hguarded.cases hcategory hcheck)
      have hkept := hkept.resolve_right (by simp [ho])
      have hstored : ∀ (created : List (Object Id)) (m : Object Id),
          storeMerged store created m = (.ok newRoot, built) →
          newRoot = m.id ∧ store'.objects.get m.id = some m := by
        intro created m hm
        obtain ⟨hid, hbuilt⟩ := storeMerged_eq_ok hm
        refine ⟨hid, ?_⟩
        rw [hsame, hbuilt]
        exact AddressedMap.get_putAll_of_mem Object.id_injective store.objects
          (by simp)
      split at hb
      next => simp at hb
      next ff created hmerge =>
        have hid := Except.ok.inj (Prod.mk.inj hb).1
        rw [← hid]
        refine merged_metaAt hmoved (mergeTrees_eq_ok_iff.mp hmerge) hle ?_ ho
          hkept
        rintro m (hm | ⟨cs, hm⟩) <;> contradiction
      next merged created hmerge =>
        obtain ⟨rfl, hget⟩ := hstored created merged hb
        refine merged_metaAt hmoved (mergeTrees_eq_ok_iff.mp hmerge) hle ?_ ho
          hkept
        rintro m (hm | ⟨cs, hm⟩)
        · rw [← MergeResult.success.inj hm]
          exact hget
        · contradiction
      next merged cs created hmerge =>
        obtain ⟨rfl, hget⟩ := hstored created merged hb
        refine merged_metaAt hmoved (mergeTrees_eq_ok_iff.mp hmerge) hle ?_ ho
          hkept
        rintro m (hm | ⟨cs', hm⟩)
        · contradiction
        · rw [← (MergeResult.conflicts.inj hm).1]
          exact hget

theorem commitSpeculationCas_metaKept_iff {store store' : Storage Id}
    {spec : Speculation Id} {expectedHead : Id} {options : CommitOptions}
    {now : ℤ} {id : Id} (hcategory : options.intent.category ≠ .migrate)
    (h : repo.commitSpeculationCas store spec expectedHead options now =
      (.ok id, store')) :
    MetaKept store store' id ↔
      SpeculationGuarded store.objects spec spec.baseRoot := by
  unfold commitSpeculationCas at h
  split at h
  next => simp at h
  next c built hbuild =>
    obtain ⟨hroot, hcheck, hc, hcommit⟩ := repo.buildSpeculation_eq_ok hbuild
    split at h
    next => simp at h
    next => simp at h
    next moved hmove =>
      obtain ⟨-, -, rfl⟩ | ⟨hfalse, -, -⟩ := repo.advanceRef_eq_ok hmove
      · simp only [Prod.mk.injEq, Except.ok.injEq] at h
        obtain ⟨rfl, rfl⟩ := h
        have hparents : c.parents = [expectedHead] := by
          rw [hc]
          rfl
        have hnew : c.stateRoot = spec.currentRoot := by
          rw [hc]
          rfl
        have hcommitted : (built.putRef repo.activeNamespace spec.baseRef
            c.id).getCommit c.id = some c := hcommit.getCommit
        rw [metaKept_iff store hcommitted hparents
            (Storage.rootOf_of_le hcommit.grows.commits hroot),
          speculationGuarded_iff hcategory hcheck, hnew,
          Storage.putRef_objects, hcommit.objects]
      · simp at hfalse

end Repository

/-! ## Every write -/

namespace AgentCall

variable (c : AgentCall Id)

/-- When the guards see what the call does to the reserved subtree. -/
def MetaGuarded (store : Storage Id) : Prop :=
  match c.write with
  | .set refName path value =>
      ¬IsRootPath path ∨
        c.repo.HeadHasEntry store refName value.mapEntries[metaKey]?
  | .setJson refName path value _ =>
      ¬IsRootPath path ∨
        c.repo.HeadHasEntry store refName
          ((jsonToObjects value).1 : Object Id).mapEntries[metaKey]?
  | .setJsonCas _ expectedHead path value _ =>
      ¬IsRootPath path ∨
        IsEntryOf store expectedHead
          ((jsonToObjects value).1 : Object Id).mapEntries[metaKey]?
  | .delete refName path =>
      ¬IsRootPath path ∨ c.repo.HeadHasEntry store refName none
  | .merge _ _ _ => True
  | .commitSpeculation spec =>
      ∀ head isBranch root,
        c.repo.headForWrite store spec.baseRef = .ok (head, isBranch) →
        store.rootOf head = some root →
        SpeculationGuarded store.objects spec root
  | .commitSpeculationCas spec _ =>
      SpeculationGuarded store.objects spec spec.baseRoot

/-- A merge is no write of this kind. -/
def IsMerge : Prop :=
  match c.write with
  | .merge _ _ _ => True
  | _ => False

/-- A speculation whose ref has moved since it forked. -/
def OnMovedHead (store : Storage Id) : Prop :=
  match c.write with
  | .commitSpeculation spec =>
      ∃ head isBranch root,
        c.repo.headForWrite store spec.baseRef = .ok (head, isBranch) ∧
        store.rootOf head = some root ∧ root ≠ spec.baseRoot
  | _ => False

end AgentCall

/-! ## Writes that the guards do not see -/

namespace Unguarded

open ContentKey

def x : Object ContentKey := Object.string "x"

def metaObject : Object ContentKey := mapOf [("schema", x)]

def state : Object ContentKey := mapOf [("_meta", metaObject), ("a", x)]

/-- A state of another kind. -/
def listState : Object ContentKey := Object.list []

def start : Commit ContentKey := commitOf state [] 0

def store : Storage ContentKey :=
  ({ Storage.new with
      objects := AddressedMap.empty.putAll [x, metaObject, state, listState]
      commits := AddressedMap.empty.putAll [start] } :
    Storage ContentKey).putRef "default" "main" start.id

def call (write : AgentWrite ContentKey) : AgentCall ContentKey where
  repo := Repository.new
  write := write
  options := options .refine
  now := fun _ => 1

/-- Replace the whole state. -/
def replacing : AgentCall ContentKey := call (.set "main" "/" x)

def deleting : AgentCall ContentKey := call (.delete "main" "")

/-- Commit a speculation whose root is no map any more. -/
def speculating : AgentCall ContentKey :=
  call (.commitSpeculation ⟨none, "main", state.id, listState.id⟩)

/-- A write beside the subtree. -/
def setting : AgentCall ContentKey := call (.set "main" "/b" x)

/-- The commit that a call on `main` makes. -/
def commitOn (root : ContentKey) : Commit ContentKey :=
  CommitBuilder.build root [start.id] (options .refine) 1

theorem not_metaKept {s : Storage ContentKey} {root : ContentKey}
    (hcommit : s.getCommit (commitOn root).id = some (commitOn root))
    (hroot : s.rootOf start.id = some state.id)
    (hmeta : metaAt s.objects root ≠ some metaObject.id) :
    ¬MetaKept store s (commitOn root).id := by
  intro hkept
  have hstate : store.objects.get state.id = some state := by decide
  have hentry : state.mapEntries[metaKey]? = some metaObject.id := by
    decide
  apply hmeta
  rw [← hentry]
  exact hkept (commitOn root) start.id state.id state hcommit
    List.mem_cons_self hroot hstate

end Unguarded

end AgentStateGraph
