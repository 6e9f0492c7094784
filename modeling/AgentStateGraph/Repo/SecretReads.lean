import AgentStateGraph.Core.ContentKey
import AgentStateGraph.Repo.Reads
import AgentStateGraph.Tree.Hidden

/-!
# What reads tell about secrets

A read without secret access is refused at and below `/_meta/_secret`, and
listings drop the paths that land there.  The reads of the two ancestors of
the secret subtree, and the listings whose cap counts secret paths before they
are dropped, still depend on it.  `noninterfering_iff` says exactly which
calls do not.
-/

namespace AgentStateGraph

variable {Id : Type} [Digest Id]

def SECRET_KEYS : List String := ["_meta", "_secret"]

/-- Two states, each stored in full, that differ only in the subtree at
`/_meta/_secret`. -/
structure SecretAlike (s t : ObjectStore Id) (a b : Id) : Prop where
  left : s.Complete a
  right : t.Complete b
  differ : ∃ o o', s.get a = some o ∧ t.get b = some o' ∧
    DifferOnlyAt s t SECRET_KEYS o o'

/-- The reads that take no intent. -/
inductive ReadCall where
  | getJson (path : String)
  | getJsonCapped (path : String) (maxDepth : ℕ)
  | getJsonMany (paths : List String)
  | listPaths (pre : String) (maxDepth : Option ℕ)
  | searchValues (query : String) (maxResults : Option ℕ)
deriving DecidableEq

inductive ReadResult where
  | json (value : Json)
  | jsons (values : List (Option Json))
  | paths (paths : List String)
  | hits (results : List (String × String))

def ReadCall.run (text : TextTables) (repo : Repository) (store : Storage Id)
    (refName : String) : ReadCall → Except (RepoError Id) ReadResult
  | .getJson path => .json <$> repo.getJson store refName path
  | .getJsonCapped path maxDepth =>
      .json <$> repo.getJsonCapped store refName path maxDepth
  | .getJsonMany paths => .jsons <$> repo.getJsonMany store refName paths
  | .listPaths pre maxDepth =>
      .paths <$> repo.listPaths store refName pre maxDepth
  | .searchValues query maxResults =>
      .hits <$> repo.searchValues text store refName query maxResults

/-- The call returns the same on any two states that differ only below
`/_meta/_secret`. -/
def ReadCall.Noninterfering (Id : Type) [Digest Id] (text : TextTables)
    (call : ReadCall) : Prop :=
  ∀ (repo : Repository) (s t : Storage Id) (refName : String) (a b : Id),
    repo.headRoot s refName = .ok a → repo.headRoot t refName = .ok b →
    SecretAlike s.objects t.objects a b →
    call.run text repo s refName = call.run text repo t refName

/-- How many levels the secret subtree lies below a path; none for a path that
does not lead there. -/
def levelsToSecret (path : String) : Option ℕ :=
  if path = "" ∨ path = "/" then some 2
  else if path = "/_meta" then some 1
  else none

/-- A bounded read from a path ends above the secret subtree. -/
def EndsAbove (path : String) (depth : ℕ) : Prop :=
  ∀ n, levelsToSecret path = some n → depth < n

/-- The calls that stay clear of the secret subtree. -/
def ReadCall.Safe (text : TextTables) : ReadCall → Prop
  | .getJson path => levelsToSecret path = none
  | .getJsonCapped path maxDepth => EndsAbove path maxDepth
  | .getJsonMany paths =>
      (∃ p ∈ paths, pathIsSecret p = true) ∨
      (∃ p ∈ paths, ∃ e, StatePath.parse p = .error e) ∨
      ∀ p ∈ paths, levelsToSecret p = none
  | .listPaths pre maxDepth =>
      EndsAbove pre (min (maxDepth.getD 50) LIST_PATHS_HARD_CEILING)
  | .searchValues query maxResults =>
      min (maxResults.getD 50) LIST_PATHS_MAX_RESULTS ≤
        nameHits text (text.toLowercase query) SECRET_KEYS

/-! ## Paths to the secret subtree -/

theorem parse_secretPrefix :
    StatePath.parse META_SECRET_PREFIX =
      .ok ⟨SECRET_KEYS.map PathComponent.key⟩ := by
  decide

theorem pathIsSecret_iff {path : String} {p : StatePath}
    (h : StatePath.parse path = .ok p) :
    pathIsSecret path = true ↔
      SECRET_KEYS.map PathComponent.key <+: p.components :=
  isAtOrUnder_iff_components_isPrefix parse_secretPrefix (by decide) h

theorem eq_meta_of_components {path : String} {p : StatePath}
    (h : StatePath.parse path = .ok p)
    (hcomp : p.components = [.key "_meta"]) : path = "/_meta" := by
  rcases StatePath.parse_eq_ok h with ⟨-, hroot⟩ | ⟨hslash, hsegs, -⟩
  · rw [hroot] at hcomp
    simp [StatePath.root] at hcomp
  · rw [hcomp] at hsegs
    have hlen : (StatePath.segments path).length = 1 := by
      simpa using (congrArg List.length hsegs).symm
    obtain ⟨seg, hseg⟩ := List.length_eq_one_iff.mp hlen
    rw [hseg] at hsegs
    have hmeta : seg = "_meta".toList :=
      PathComponent.ofSegment_eq_key (by simpa using hsegs.symm)
    have hdrop : path.toList.drop 1 = "_meta".toList := by
      have hjoin : ['/'].intercalate ((path.toList.drop 1).splitOn '/') =
          path.toList.drop 1 := List.intercalate_splitOn '/'
      rw [show (path.toList.drop 1).splitOn '/' = [seg] from hseg, hmeta] at hjoin
      simpa using hjoin.symm
    apply String.toList_inj.mp
    rw [hslash, hdrop]
    decide

theorem prefix_pair_cases {α : Type} {x y : α} {l : List α}
    (h : l <+: [x, y]) : l = [] ∨ l = [x] ∨ l = [x, y] := by
  match l, h with
  | [], _ => exact Or.inl rfl
  | [a], h => simp_all
  | [a, b], h => simp_all
  | a :: b :: c :: l, h =>
      have := h.length_le
      simp at this

theorem levelsToSecret_of_under {path : String} {p : StatePath}
    (h : StatePath.parse path = .ok p) (hsecret : pathIsSecret path = false)
    (hpre : p.components <+: SECRET_KEYS.map PathComponent.key) :
    levelsToSecret path = some (2 - p.components.length) := by
  rcases prefix_pair_cases hpre with hnil | hmeta | hall
  · have hroot : path = "" ∨ path = "/" := by
      by_contra hne
      exact StatePath.parse_components_ne_nil h hne hnil
    simp [levelsToSecret, hroot, hnil]
  · rw [eq_meta_of_components h hmeta, hmeta]
    rfl
  · have : pathIsSecret path = true := by
      rw [pathIsSecret_iff h, hall]
      exact List.prefix_refl _
    rw [hsecret] at this
    contradiction

/-! ## Safe calls -/

section Safe

variable {s t : ObjectStore Id} {a b : Id}

theorem SecretAlike.spot (h : SecretAlike s t a b) :
    ∃ o o', s.require a = .ok o ∧ t.require b = .ok o' ∧
      Spot s t SECRET_KEYS [] o o' ∧ DifferOnlyAt s t SECRET_KEYS o o' := by
  obtain ⟨o, o', ho, ho', hdiff⟩ := h.differ
  refine ⟨o, o', require_eq_ok_iff.mpr ho, require_eq_ok_iff.mpr ho', ?_, hdiff⟩
  have hsplit : SECRET_KEYS = [] ++ SECRET_KEYS := rfl
  exact .alike hsplit hdiff (completeBelow_of_get h.left ho)
    (completeBelow_of_get h.right ho')

variable {path : String} {p : StatePath} {x x' : Object Id} {depth : ℕ}

theorem SecretAlike.treeGet (h : SecretAlike s t a b)
    (hparse : StatePath.parse path = .ok p)
    (hsecret : pathIsSecret path = false) :
    (∃ e, treeGet s a p = .error e ∧ treeGet t b p = .error e) ∨
    ∃ x x', treeGet s a p = .ok x ∧ treeGet t b p = .ok x' ∧
      Spot s t SECRET_KEYS p.components x x' := by
  obtain ⟨o, o', ho, ho', hspot, -⟩ := h.spot
  have hclear :
      ¬SECRET_KEYS.map PathComponent.key <+: [] ++ p.components := by
    rw [List.nil_append, ← pathIsSecret_iff hparse, hsecret]
    simp
  simp only [AgentStateGraph.treeGet, ho, ho', Except.ok_bind]
  rw [← List.nil_append p.components]
  exact foldlM_navigate_spot hspot hclear

theorem Spot.toJson_eq (h : Spot s t SECRET_KEYS p.components x x')
    (hparse : StatePath.parse path = .ok p)
    (hsecret : pathIsSecret path = false) (hnone : levelsToSecret path = none) :
    treeToJson s x = treeToJson t x' := by
  have hoff : ¬p.components <+: SECRET_KEYS.map PathComponent.key := by
    intro hpre
    rw [levelsToSecret_of_under hparse hsecret hpre] at hnone
    contradiction
  obtain ⟨rfl, hs, ht⟩ := h.eq_of_not_prefix hoff
  exact toJson_shared _ hs ht

theorem Spot.cases_of_endsAbove (h : Spot s t SECRET_KEYS p.components x x')
    (hparse : StatePath.parse path = .ok p)
    (hsecret : pathIsSecret path = false) (hends : EndsAbove path depth) :
    (x = x' ∧ CompleteBelow s x ∧ CompleteBelow t x) ∨
    ∃ rest, DifferOnlyAt s t rest x x' ∧ CompleteBelow s x ∧
      CompleteBelow t x' ∧ depth < rest.length := by
  generalize hcomp : p.components = comps at h
  cases h with
  | shared left right => exact Or.inl ⟨rfl, left, right⟩
  | @alike used rest _ _ split diff left right =>
      refine Or.inr ⟨rest, diff, left, right, ?_⟩
      have hpre : p.components <+: SECRET_KEYS.map PathComponent.key := by
        rw [hcomp, split, List.map_append]
        exact List.prefix_append _ _
      have hlevels := levelsToSecret_of_under hparse hsecret hpre
      have hdepth := hends _ hlevels
      have hlen := congrArg List.length split
      simp only [hcomp, List.length_map, List.length_append, SECRET_KEYS,
        List.length_cons, List.length_nil] at hdepth hlen
      omega

theorem Spot.toJsonCapped_eq (h : Spot s t SECRET_KEYS p.components x x')
    (hparse : StatePath.parse path = .ok p)
    (hsecret : pathIsSecret path = false) (hends : EndsAbove path depth) :
    treeToJsonCapped s x depth = treeToJsonCapped t x' depth := by
  rcases h.cases_of_endsAbove hparse hsecret hends with
    ⟨rfl, hs, ht⟩ | ⟨rest, hdiff, hs, ht, hlt⟩
  · exact toJsonCapped_shared depth hs ht
  · exact toJsonCapped_alike hdiff hs ht hlt

theorem Spot.collectPaths_eq (h : Spot s t SECRET_KEYS p.components x x')
    (hparse : StatePath.parse path = .ok p)
    (hsecret : pathIsSecret path = false) (hends : EndsAbove path depth)
    (current : String) :
    collectPaths s (depth + 1) x current [] =
      collectPaths t (depth + 1) x' current [] := by
  rcases h.cases_of_endsAbove hparse hsecret hends with
    ⟨rfl, hs, ht⟩ | ⟨rest, hdiff, hs, ht, hlt⟩
  · exact collectPaths_shared (depth + 1) hs ht current []
  · exact collectPaths_alike hdiff hs ht hlt current []

theorem SecretAlike.listPaths (h : SecretAlike s t a b) {pre : String}
    (hsecret : pathIsSecret pre = false) {maxDepth : ℕ}
    (hends : EndsAbove pre (min maxDepth LIST_PATHS_HARD_CEILING)) :
    treeListPaths s a pre maxDepth = treeListPaths t b pre maxDepth := by
  obtain ⟨o, o', ho, ho', hspot, -⟩ := h.spot
  simp only [treeListPaths, ho, ho', Except.ok_bind]
  by_cases hroot : pre = "" ∨ pre = "/"
  · have hparse : StatePath.parse pre = .ok StatePath.root := by
      simp [StatePath.parse, hroot]
    have hcollect :=
      Spot.collectPaths_eq (p := StatePath.root) hspot hparse hsecret hends ""
    rw [if_pos hroot, if_pos hroot, hcollect]
  · rw [if_neg hroot, if_neg hroot]
    cases hparse : StatePath.parse pre with
    | error e => simp only [parsePath, hparse, Except.error_bind]
    | ok p =>
        simp only [parsePath, hparse, Except.ok_bind]
        rcases h.treeGet hparse hsecret with
          ⟨e, he, he'⟩ | ⟨x, x', hx, hx', hspot'⟩
        · rw [he, he', Except.error_bind, Except.error_bind]
        · rw [hx, hx', Except.ok_bind, Except.ok_bind,
            hspot'.collectPaths_eq hparse hsecret hends]

theorem SecretAlike.treeGetMany (h : SecretAlike s t a b)
    {paths : List StatePath}
    (hclear : ∀ p ∈ paths,
      PathsDisjoint p.components (SECRET_KEYS.map PathComponent.key)) :
    ∃ r r', treeGetMany s a paths = .ok r ∧ treeGetMany t b paths = .ok r' ∧
      List.Forall₂ (FoundAlike s t) r r' := by
  obtain ⟨o, o', ho, ho', hspot, -⟩ := h.spot
  simp only [AgentStateGraph.treeGetMany, ho, ho', Except.ok_bind]
  have htracked : List.Forall₂
      (fun x y => Tracked s t SECRET_KEYS x y ∧ x.1.length ≤
        (paths.map fun p => p.components.length).foldr max 0)
      (paths.map fun p => (p.components, some o))
      (paths.map fun p => (p.components, some o')) := by
    rw [List.forall₂_map_left_iff, List.forall₂_map_right_iff]
    refine List.forall₂_same.mpr ?_
    intro p hp
    constructor
    · exact ⟨rfl, Or.inr ⟨[], o, o', rfl, rfl, hspot, hclear p hp⟩⟩
    · exact List.le_max_of_le' 0 (List.mem_map_of_mem hp) le_rfl
  exact descendLevels_alike htracked

end Safe

theorem pathsDisjoint_of_levelsToSecret {path : String} {p : StatePath}
    (hparse : StatePath.parse path = .ok p)
    (hsecret : pathIsSecret path = false)
    (hnone : levelsToSecret path = none) :
    PathsDisjoint p.components (SECRET_KEYS.map PathComponent.key) := by
  constructor
  · intro hpre
    rw [levelsToSecret_of_under hparse hsecret hpre] at hnone
    contradiction
  · intro hpre
    rw [(pathIsSecret_iff hparse).mpr hpre] at hsecret
    contradiction

theorem mapM_parsePath (Id : Type) (paths : List String) :
    (∃ e, paths.mapM (fun p => (liftTree (parsePath p) :
      Except (RepoError Id) StatePath)) = .error e ∧
      ∃ p ∈ paths, ∃ e, StatePath.parse p = .error e) ∨
    ∃ parsed, paths.mapM (fun p => (liftTree (parsePath p) :
      Except (RepoError Id) StatePath)) = .ok parsed ∧
      List.Forall₂ (fun path p => StatePath.parse path = .ok p) paths parsed := by
  induction paths with
  | nil => exact Or.inr ⟨[], rfl, List.Forall₂.nil⟩
  | cons path paths ih =>
      rw [List.mapM_cons]
      cases hparse : StatePath.parse path with
      | error e =>
          refine Or.inl ⟨.tree (.pathNotFound e.toString), ?_, path, by simp, e,
            hparse⟩
          simp only [parsePath, hparse, liftTree, Except.error_bind]
      | ok p =>
          have hok : (liftTree (parsePath path) :
              Except (RepoError Id) StatePath) = .ok p := by
            simp only [parsePath, hparse, liftTree]
          rw [hok, Except.ok_bind]
          rcases ih with ⟨e, he, q, hq, hbad⟩ | ⟨parsed, hparsed, hall⟩
          · rw [he]
            exact Or.inl ⟨e, rfl, q, by simp [hq], hbad⟩
          · rw [hparsed]
            exact Or.inr ⟨p :: parsed, rfl, List.Forall₂.cons hparse hall⟩

section SafeCalls

variable {repo : Repository} {s t : Storage Id} {refName : String} {a b : Id}

theorem get_spot (ha : repo.headRoot s refName = .ok a)
    (hb : repo.headRoot t refName = .ok b)
    (h : SecretAlike s.objects t.objects a b) (path : String) :
    (∃ e, repo.get s refName path = .error e ∧
      repo.get t refName path = .error e) ∨
    ∃ p x x', StatePath.parse path = .ok p ∧ pathIsSecret path = false ∧
      repo.get s refName path = .ok x ∧ repo.get t refName path = .ok x' ∧
      Spot s.objects t.objects SECRET_KEYS p.components x x' := by
  cases hsecret : pathIsSecret path with
  | true => simp [Repository.get, hsecret]
  | false =>
      simp only [Repository.get, hsecret, ha, hb, Except.ok_bind]
      cases hparse : StatePath.parse path with
      | error e =>
          simp only [parsePath, hparse, liftTree, Except.error_bind]
          exact Or.inl ⟨_, rfl, rfl⟩
      | ok p =>
          simp only [parsePath, hparse, liftTree, Except.ok_bind]
          rcases h.treeGet hparse hsecret with
            ⟨e, he, he'⟩ | ⟨x, x', hx, hx', hspot⟩
          · rw [he, he']
            exact Or.inl ⟨_, rfl, rfl⟩
          · rw [hx, hx']
            exact Or.inr ⟨p, x, x', rfl, trivial, rfl, rfl, hspot⟩

theorem getJsonMany_eq (ha : repo.headRoot s refName = .ok a)
    (hb : repo.headRoot t refName = .ok b)
    (h : SecretAlike s.objects t.objects a b) {paths : List String}
    (hsafe : ∀ p ∈ paths, levelsToSecret p = none) :
    repo.getJsonMany s refName paths = repo.getJsonMany t refName paths := by
  simp only [Repository.getJsonMany]
  cases hfind : paths.find? fun p => pathIsSecret p with
  | some secret => rfl
  | none =>
      rcases mapM_parsePath Id paths with ⟨e, he, -⟩ | ⟨parsed, hparsed, hall⟩
      · rw [he, Except.error_bind, Except.error_bind]
      · have hclear : ∀ p ∈ parsed,
            PathsDisjoint p.components (SECRET_KEYS.map PathComponent.key) := by
          intro p hp
          obtain ⟨path, hpath, hparse⟩ := Except.exists_of_mem_forall₂ hall.flip hp
          have hnot : pathIsSecret path = false := by
            simpa using List.find?_eq_none.mp hfind path hpath
          exact pathsDisjoint_of_levelsToSecret hparse hnot (hsafe path hpath)
        obtain ⟨r, r', hr, hr', hfound⟩ := h.treeGetMany hclear
        rw [hparsed, Except.ok_bind, Except.ok_bind]
        simp only [ha, hb, hr, hr', liftTree, Except.ok_bind,
          treesToJson_alike hfound]

theorem noninterfering_of_safe {text : TextTables} {call : ReadCall}
    (hsafe : call.Safe text) : call.Noninterfering Id text := by
  intro repo s t refName a b ha hb h
  cases call with
  | getJson path =>
      have hsame : repo.getJson s refName path = repo.getJson t refName path := by
        simp only [Repository.getJson]
        rcases get_spot ha hb h path with
          ⟨e, he, he'⟩ | ⟨p, x, x', hparse, hsecret, hx, hx', hspot⟩
        · rw [he, he', Except.error_bind, Except.error_bind]
        · rw [hx, hx', Except.ok_bind, Except.ok_bind,
            hspot.toJson_eq hparse hsecret hsafe]
      simp only [ReadCall.run, hsame]
  | getJsonCapped path maxDepth =>
      have hsame : repo.getJsonCapped s refName path maxDepth =
          repo.getJsonCapped t refName path maxDepth := by
        simp only [Repository.getJsonCapped]
        rcases get_spot ha hb h path with
          ⟨e, he, he'⟩ | ⟨p, x, x', hparse, hsecret, hx, hx', hspot⟩
        · rw [he, he', Except.error_bind, Except.error_bind]
        · rw [hx, hx', Except.ok_bind, Except.ok_bind,
            hspot.toJsonCapped_eq hparse hsecret hsafe]
      simp only [ReadCall.run, hsame]
  | getJsonMany paths =>
      have hsame : repo.getJsonMany s refName paths =
          repo.getJsonMany t refName paths := by
        rcases hsafe with ⟨p, hp, hsecret⟩ | ⟨p, hp, e, hbad⟩ | hclear
        · simp only [Repository.getJsonMany]
          cases hfind : paths.find? fun p => pathIsSecret p with
          | some secret => rfl
          | none =>
              have := List.find?_eq_none.mp hfind p hp
              contradiction
        · simp only [Repository.getJsonMany]
          cases hfind : paths.find? fun p => pathIsSecret p with
          | some secret => rfl
          | none =>
              rcases mapM_parsePath Id paths with
                ⟨e, he, -⟩ | ⟨parsed, -, hall⟩
              · rw [he, Except.error_bind, Except.error_bind]
              · obtain ⟨q, -, hq⟩ := Except.exists_of_mem_forall₂ hall hp
                rw [hbad] at hq
                contradiction
        · exact getJsonMany_eq ha hb h hclear
      simp only [ReadCall.run, hsame]
  | listPaths pre maxDepth =>
      have hsame : repo.listPaths s refName pre maxDepth =
          repo.listPaths t refName pre maxDepth := by
        simp only [Repository.listPaths]
        cases hsecret : pathIsSecret pre with
        | true => rfl
        | false => simp only [ha, hb, Except.ok_bind, h.listPaths hsecret hsafe]
      simp only [ReadCall.run, hsame]
  | searchValues query maxResults =>
      obtain ⟨o, o', ho, ho', -, hdiff⟩ := h.spot
      have hsearch : treeSearchValues text s.objects a query
            (maxResults.getD 50) =
          treeSearchValues text t.objects b query (maxResults.getD 50) := by
        simp only [treeSearchValues, ho, ho', Except.ok_bind]
        refine searchRecursive_alike hdiff
          (completeBelow_of_get h.left (require_eq_ok_iff.mp ho))
          (completeBelow_of_get h.right (require_eq_ok_iff.mp ho')) ?_
        simpa [ReadCall.Safe] using hsafe
      simp only [ReadCall.run, Repository.searchValues, ha, hb, Except.ok_bind,
        hsearch]

end SafeCalls

/-! ## States that tell -/

namespace Leak

def options : CommitOptions where
  agentId := "agent"
  intent := ⟨"i", .checkpoint, "state", [], none⟩
  reasoning := none
  confidence := none
  provenance := ""

/-- A storage whose `main` is one commit of the state at `root`. -/
def storageOf (objects : List (Object Id)) (root : Object Id) : Storage Id :=
  let commit := CommitBuilder.build root.id [] options 0
  { (Storage.new : Storage Id) with
    objects := AddressedMap.empty.putAll objects
    commits := AddressedMap.empty.put commit
    refs := (∅ : BTreeMap (String ×ₗ String) Id).insert
      (toLex ("default", "main")) commit.id }

theorem headRoot_storageOf (objects : List (Object Id)) (root : Object Id) :
    Repository.new.headRoot (storageOf objects root) "main" = .ok root.id := by
  have hns : Repository.new.activeNamespace ∈
      (storageOf objects root).namespaces := by
    simp [storageOf, Storage.new, Repository.activeNamespace, Repository.new]
  have href : (storageOf objects root).refAt Repository.new.activeNamespace
      "main" = some (CommitBuilder.build root.id [] options 0).id := by
    simp only [storageOf, Storage.refAt, Repository.activeNamespace,
      Repository.new]
    exact Std.ExtTreeMap.getElem?_insert_self
  have hresolve := Repository.new.resolveRef_of_refAt hns href
  have hcommit : (storageOf objects root).getCommit
      (CommitBuilder.build root.id [] options 0).id =
        some (CommitBuilder.build root.id [] options 0) :=
    AddressedMap.get_put_self _ _
  simp only [Repository.headRoot, hresolve, Except.ok_bind, hcommit,
    CommitBuilder.build_stateRoot]

theorem get_storageOf {objects : List (Object Id)} {root o : Object Id}
    (h : o ∈ objects) : (storageOf objects root).objects.get o.id = some o :=
  AddressedMap.get_putAll_of_mem Object.id_injective _ h

theorem complete_storageOf {objects : List (Object Id)} {root o : Object Id}
    (hclosed : ∀ x ∈ objects, ∀ c ∈ x.childIds, ∃ y ∈ objects, y.id = c)
    (h : o ∈ objects) : (storageOf objects root).objects.Complete o.id := by
  intro x hx
  have hlisted : ∃ y ∈ objects, y.id = x := by
    refine hx.mem_of_closed (P := fun x => ∃ y ∈ objects, y.id = x) ?_
      ⟨o, h, rfl⟩
    rintro _ ⟨y, hy, rfl⟩ c hc
    rw [ObjectStore.children_of_get (get_storageOf hy)] at hc
    exact hclosed y hy c hc
  obtain ⟨y, hy, rfl⟩ := hlisted
  rw [get_storageOf hy]
  rfl

/-! Each state has at `/_meta` a number of leaves before the secret and one
after it.  The secret is an empty map, or a map with one list of leaves. -/

section States

variable (q : String) (k n : ℕ)

def leaf : Object Id := Object.string q

def hidden : Object Id := Object.list (List.replicate n (leaf q : Object Id).id)

/-- The two secrets. -/
def secret (i : Bool) : Object Id :=
  Object.map (Std.ExtTreeMap.ofList
    (if i then [("a", (hidden q n : Object Id).id)] else []) compare)

def fillKey (i : ℕ) : String := String.ofList (List.replicate (i + 1) 'A')

def fillers : List (String × Id) :=
  (List.range k).map fun i => (fillKey i, (leaf q : Object Id).id)

def metaEntries (i : Bool) : List (String × Id) :=
  fillers q k ++ [("_secret", (secret q n i : Object Id).id),
    ("z", (leaf q : Object Id).id)]

def metaMap (i : Bool) : Object Id :=
  Object.map (Std.ExtTreeMap.ofList (metaEntries q k n i) compare)

def root (i : Bool) : Object Id :=
  Object.map (Std.ExtTreeMap.ofList
    [("_meta", (metaMap q k n i : Object Id).id)] compare)

def objects : List (Object Id) :=
  [leaf q, hidden q n, secret q n false, secret q n true,
    metaMap q k n false, metaMap q k n true, root q k n false, root q k n true]

def state (i : Bool) : Storage Id := storageOf (objects q k n) (root q k n i)

variable {q k n}

theorem replicate_lt_replicate {i j : ℕ} (h : i < j) :
    List.replicate i 'A' < List.replicate j 'A' := by
  induction i generalizing j with
  | zero =>
      obtain ⟨j, rfl⟩ := Nat.exists_eq_succ_of_ne_zero h.ne'
      exact List.nil_lt_cons _ _
  | succ i ih =>
      obtain ⟨j, rfl⟩ := Nat.exists_eq_succ_of_ne_zero (by omega : j ≠ 0)
      rw [List.replicate_succ, List.replicate_succ, List.cons_lt_cons_iff]
      exact Or.inr ⟨rfl, ih (by omega)⟩

theorem fillKey_lt (i : ℕ) {c : Char} (cs : List Char) (h : 'A' < c) :
    fillKey i < String.ofList (c :: cs) := by
  rw [String.lt_iff_toList_lt, fillKey, String.toList_ofList,
    String.toList_ofList, List.replicate_succ, List.cons_lt_cons_iff]
  exact Or.inl h

theorem pairwise_metaEntries (i : Bool) :
    ((metaEntries q k n i : List (String × Id)).map Prod.fst).Pairwise
      (· < ·) := by
  have hkeys : (metaEntries q k n i : List (String × Id)).map Prod.fst =
      (List.range k).map fillKey ++ ["_secret", "z"] := by
    simp [metaEntries, fillers, Function.comp_def]
  rw [hkeys, List.pairwise_append]
  refine ⟨?_, by decide, ?_⟩
  · rw [List.pairwise_map]
    refine List.pairwise_lt_range.imp ?_
    intro a b hab
    rw [String.lt_iff_toList_lt, fillKey, fillKey, String.toList_ofList,
      String.toList_ofList]
    exact replicate_lt_replicate (by omega)
  · intro a ha b hb
    obtain ⟨j, -, rfl⟩ := List.mem_map.mp ha
    rcases List.mem_pair.mp hb with rfl | rfl
    · exact fillKey_lt j "secret".toList (by decide)
    · exact fillKey_lt j [] (by decide)

theorem toList_metaMap (i : Bool) :
    (Std.ExtTreeMap.ofList (metaEntries q k n i : List (String × Id))
      compare).toList = metaEntries q k n i :=
  KeyedMap.toList_ofList (pairwise_metaEntries i)

omit [Digest Id] in
theorem toList_one (key : String) (id : Id) :
    (Std.ExtTreeMap.ofList [(key, id)] compare).toList = [(key, id)] :=
  KeyedMap.toList_ofList (by simp)

theorem objects_closed : ∀ x ∈ (objects q k n : List (Object Id)),
    ∀ c ∈ x.childIds, ∃ y ∈ (objects q k n : List (Object Id)), y.id = c := by
  have hleaf : (leaf q : Object Id) ∈ (objects q k n : List (Object Id)) := by
    simp [objects]
  have hmeta : ∀ i, ∀ c ∈ (metaMap q k n i : Object Id).childIds,
      ∃ y ∈ (objects q k n : List (Object Id)), y.id = c := by
    intro i c hc
    simp only [metaMap, Object.map, Object.childIds, toList_metaMap] at hc
    simp only [metaEntries, fillers, List.map_append, List.map_map,
      List.mem_append, List.mem_map, List.map_cons, List.map_nil,
      List.mem_pair] at hc
    rcases hc with ⟨j, -, rfl⟩ | rfl | rfl
    · exact ⟨leaf q, hleaf, rfl⟩
    · exact ⟨secret q n i, by cases i <;> simp [objects], rfl⟩
    · exact ⟨leaf q, hleaf, rfl⟩
  have hroot : ∀ i, ∀ c ∈ (root q k n i : Object Id).childIds,
      ∃ y ∈ (objects q k n : List (Object Id)), y.id = c := by
    intro i c hc
    simp only [root, Object.map, Object.childIds, toList_one, List.map_cons,
      List.map_nil, List.mem_singleton] at hc
    exact ⟨metaMap q k n i, by cases i <;> simp [objects], hc.symm⟩
  intro x hx c hc
  simp only [objects, List.mem_cons, List.not_mem_nil, or_false] at hx
  rcases hx with rfl | rfl | rfl | rfl | rfl | rfl | rfl | rfl
  · simp [leaf, Object.string, Object.childIds] at hc
  · simp only [hidden, Object.list, Object.childIds] at hc
    exact ⟨leaf q, hleaf, (List.eq_of_mem_replicate hc).symm⟩
  · simp [secret, Object.map, Object.childIds] at hc
  · simp only [secret, Object.map, Object.childIds, if_true, toList_one,
      List.map_cons, List.map_nil, List.mem_singleton] at hc
    exact ⟨hidden q n, by simp [objects], hc.symm⟩
  · exact hmeta false c hc
  · exact hmeta true c hc
  · exact hroot false c hc
  · exact hroot true c hc

theorem headRoot_state (i : Bool) :
    Repository.new.headRoot (state q k n i : Storage Id) "main" =
      .ok (root q k n i : Object Id).id :=
  headRoot_storageOf _ _

theorem require_state {o : Object Id} (i : Bool)
    (h : o ∈ (objects q k n : List (Object Id))) :
    (state q k n i : Storage Id).objects.require o.id = .ok o :=
  require_eq_ok_iff.mpr (get_storageOf h)

theorem getElem?_metaMap (i : Bool) {key : String} {id : Id}
    (h : (key, id) ∈ (metaEntries q k n i : List (String × Id))) :
    (Std.ExtTreeMap.ofList (metaEntries q k n i : List (String × Id))
      compare)[key]? = some id := by
  rw [← Std.ExtTreeMap.mem_toList_iff_getElem?_eq_some, toList_metaMap]
  exact h

theorem secretAlike_state :
    SecretAlike (state q k n false : Storage Id).objects
      (state q k n true : Storage Id).objects
      (root q k n false).id (root q k n true).id := by
  have hmem : ∀ i, (root q k n i : Object Id) ∈ objects q k n := by
    intro i
    cases i <;> simp [objects]
  have hmem' : ∀ i, (metaMap q k n i : Object Id) ∈ objects q k n := by
    intro i
    cases i <;> simp [objects]
  have hmem'' : ∀ i, (secret q n i : Object Id) ∈ objects q k n := by
    intro i
    cases i <;> simp [objects]
  refine ⟨complete_storageOf objects_closed (hmem false),
    complete_storageOf objects_closed (hmem true),
    root q k n false, root q k n true, get_storageOf (hmem false),
    get_storageOf (hmem true), ?_⟩
  have hrest : DifferOnlyAt (state q k n false : Storage Id).objects
      (state q k n true : Storage Id).objects ["_secret"]
      (metaMap q k n false) (metaMap q k n true) := by
    refine .inside ?_ (getElem?_metaMap false ?_) (getElem?_metaMap true ?_)
      (get_storageOf (hmem'' false)) (get_storageOf (hmem'' true)) (.here _ _)
    · intro key hkey
      apply Option.ext
      intro id
      rw [← Std.ExtTreeMap.mem_toList_iff_getElem?_eq_some,
        ← Std.ExtTreeMap.mem_toList_iff_getElem?_eq_some, toList_metaMap,
        toList_metaMap]
      simp [metaEntries, hkey]
    · simp [metaEntries]
    · simp [metaEntries]
  have hentry : ∀ i, (Std.ExtTreeMap.ofList
      [("_meta", (metaMap q k n i : Object Id).id)] compare)["_meta"]? =
        some (metaMap q k n i : Object Id).id := by
    intro i
    simp
  refine .inside ?_ (hentry false) (hentry true)
    (get_storageOf (hmem' false)) (get_storageOf (hmem' true)) hrest
  intro key hkey
  simp [Ne.symm hkey]

theorem mem_objects_root (i : Bool) :
    (root q k n i : Object Id) ∈ objects q k n := by
  cases i <;> simp [objects]

theorem mem_objects_meta (i : Bool) :
    (metaMap q k n i : Object Id) ∈ objects q k n := by
  cases i <;> simp [objects]

theorem mem_objects_secret (i : Bool) :
    (secret q n i : Object Id) ∈ objects q k n := by
  cases i <;> simp [objects]

theorem mem_objects_leaf : (leaf q : Object Id) ∈ objects q k n := by
  simp [objects]

theorem mem_objects_hidden : (hidden q n : Object Id) ∈ objects q k n := by
  simp [objects]

theorem completeBelow_state {o : Object Id} (i : Bool)
    (h : o ∈ (objects q k n : List (Object Id))) :
    CompleteBelow (state q k n i : Storage Id).objects o :=
  completeBelow_of_get (complete_storageOf objects_closed h) (get_storageOf h)

end States

/-! ### Reading an ancestor -/

section Ancestors

variable {s : ObjectStore Id} {f : Object Id → Except (TreeError Id) Json}

variable {l : List (String × Id)} {values : List (String × Json)}
  {text : TextTables} {q path : String} {k n : ℕ}

theorem entriesToJson_cons {key : String} {o : Object Id} {value : Json}
    (ho : s.require o.id = .ok o) (hvalue : f o = .ok value)
    (hrest : entriesToJson s f l = .ok values) :
    entriesToJson s f ((key, o.id) :: l) = .ok ((key, value) :: values) := by
  simp only [entriesToJson] at hrest ⊢
  rw [List.mapM_cons, hrest, ho, Except.ok_bind, hvalue]
  rfl

theorem toJson_map {fuel : ℕ} (hl : (l.map Prod.fst).Pairwise (· < ·))
    (h : entriesToJson s (toJson s fuel) l = .ok values) :
    toJson s (fuel + 1) (Object.map (Std.ExtTreeMap.ofList l compare)) =
      .ok (.object values) := by
  simp only [toJson, Object.map, KeyedMap.toList_ofList hl, h, Except.ok_bind]

theorem toJsonCapped_map {levels : ℕ} (hl : (l.map Prod.fst).Pairwise (· < ·))
    (h : entriesToJson s (toJsonCapped s levels) l = .ok values) :
    toJsonCapped s (levels + 1)
      (Object.map (Std.ExtTreeMap.ofList l compare)) =
      .ok (.object values) := by
  simp only [toJsonCapped, Object.map, KeyedMap.toList_ofList hl, h,
    Except.ok_bind]

/-- What stands around a secret whose value is `value`. -/
def metaJson (value : Json) : Json :=
  .object [("_secret", value), ("z", .string "")]

def rootJson (value : Json) : Json := .object [("_meta", metaJson value)]

theorem metaJson_injective : Function.Injective metaJson := by
  intro a b h
  simpa [metaJson] using h

theorem rootJson_injective : Function.Injective rootJson := by
  intro a b h
  exact metaJson_injective (by simpa [rootJson] using h)

/-- The bare secrets as JSON. -/
def secretJson (i : Bool) : Json :=
  .object (if i then [("a", .array [])] else [])

theorem toJson_bare (fuel : ℕ) (i : Bool) :
    toJson (state "" 0 0 i : Storage Id).objects (fuel + 3)
        (metaMap "" 0 0 i) = .ok (metaJson (secretJson i)) ∧
      toJson (state "" 0 0 i : Storage Id).objects (fuel + 4)
        (root "" 0 0 i) = .ok (rootJson (secretJson i)) := by
  have hsecret : toJson (state "" 0 0 i : Storage Id).objects (fuel + 2)
      (secret "" 0 i) = .ok (secretJson i) := by
    cases i with
    | false => exact toJson_map (by simp) rfl
    | true =>
        exact toJson_map (by simp) (entriesToJson_cons
          (require_state true mem_objects_hidden) rfl rfl)
  have hmeta : toJson (state "" 0 0 i : Storage Id).objects (fuel + 3)
      (metaMap "" 0 0 i) = .ok (metaJson (secretJson i)) :=
    toJson_map (pairwise_metaEntries i) (entriesToJson_cons
      (require_state i (mem_objects_secret i)) hsecret
      (entriesToJson_cons (require_state i mem_objects_leaf) rfl rfl))
  refine ⟨hmeta, ?_⟩
  exact toJson_map (by simp) (entriesToJson_cons
    (require_state i (mem_objects_meta i)) hmeta rfl)

theorem treeToJson_root (i : Bool) :
    treeToJson (state "" 0 0 i : Storage Id).objects (root "" 0 0 i) =
      .ok (rootJson (secretJson i)) := by
  rw [treeToJson, toJson_fuel _ (Nat.lt_succ_self _)
    (by omega : _ < Digest.rank (root "" 0 0 i : Object Id).id + 4)]
  exact (toJson_bare _ i).2

theorem treeToJson_meta (i : Bool) :
    treeToJson (state "" 0 0 i : Storage Id).objects (metaMap "" 0 0 i) =
      .ok (metaJson (secretJson i)) := by
  rw [treeToJson, toJson_fuel _ (Nat.lt_succ_self _)
    (by omega : _ < Digest.rank (metaMap "" 0 0 i : Object Id).id + 3)]
  exact (toJson_bare _ i).1

theorem exists_toJsonCapped_secret (Id : Type) [Digest Id] (levels : ℕ) :
    ∃ value : Bool → Json, value false ≠ value true ∧
      ∀ i, toJsonCapped (state "" 0 0 i : Storage Id).objects levels
        (secret "" 0 i) = .ok (value i) := by
  cases levels with
  | zero =>
      refine ⟨fun i => truncated (Node.map (Std.ExtTreeMap.ofList
        (if i then [("a", (hidden "" 0 : Object Id).id)] else []) compare)), ?_,
        fun i => rfl⟩
      have hkeys : (Std.ExtTreeMap.ofList [("a", (hidden "" 0 : Object Id).id)]
          compare).keys = ["a"] := by
        rw [← Std.ExtTreeMap.map_fst_toList_eq_keys, toList_one]
        rfl
      have hnone : (Std.ExtTreeMap.ofList ([] : List (String × Id))
          compare).keys = [] := by
        rw [← Std.ExtTreeMap.map_fst_toList_eq_keys]
        rfl
      simp [truncated, hkeys, hnone, -Std.ExtTreeMap.ofList_nil,
        -Std.ExtTreeMap.ofList_singleton]
  | succ levels =>
      refine ⟨fun i => .object (if i then
        [("a", if levels = 0 then truncated (.list ([] : List Id))
          else .array [])] else []), by simp, ?_⟩
      intro i
      cases i with
      | false => exact toJsonCapped_map (by simp) rfl
      | true =>
          refine toJsonCapped_map (by simp) (entriesToJson_cons
            (require_state true mem_objects_hidden) ?_ rfl)
          cases levels with
          | zero => rfl
          | succ levels => rfl

theorem exists_toJsonCapped_meta (Id : Type) [Digest Id] (levels : ℕ) :
    ∃ value : Bool → Json, value false ≠ value true ∧
      ∀ i, toJsonCapped (state "" 0 0 i : Storage Id).objects (levels + 1)
        (metaMap "" 0 0 i) = .ok (metaJson (value i)) := by
  obtain ⟨value, hne, hvalue⟩ := exists_toJsonCapped_secret Id levels
  refine ⟨value, hne, ?_⟩
  intro i
  have hleaf : toJsonCapped (state "" 0 0 i : Storage Id).objects levels
      (leaf "") = .ok (.string "") := by
    cases levels <;> rfl
  exact toJsonCapped_map (pairwise_metaEntries i) (entriesToJson_cons
    (require_state i (mem_objects_secret i)) (hvalue i)
    (entriesToJson_cons (require_state i mem_objects_leaf) hleaf rfl))

theorem exists_toJsonCapped_root (Id : Type) [Digest Id] (levels : ℕ) :
    ∃ value : Bool → Json, value false ≠ value true ∧
      ∀ i, toJsonCapped (state "" 0 0 i : Storage Id).objects (levels + 2)
        (root "" 0 0 i) = .ok (rootJson (value i)) := by
  obtain ⟨value, hne, hvalue⟩ := exists_toJsonCapped_meta Id levels
  refine ⟨value, hne, ?_⟩
  intro i
  exact toJsonCapped_map (by simp) (entriesToJson_cons
    (require_state i (mem_objects_meta i)) (hvalue i) rfl)

theorem ne_of_ne {call : ReadCall}
    (h : call.run text Repository.new (state q k n false : Storage Id) "main" ≠
      call.run text Repository.new (state q k n true) "main") :
    ¬call.Noninterfering Id text := by
  intro hsame
  exact h (hsame _ _ _ _ _ _ (headRoot_state false) (headRoot_state true)
    secretAlike_state)

theorem get_root (h : path = "" ∨ path = "/") (i : Bool) :
    Repository.new.get (state q k n i : Storage Id) "main" path =
      .ok (root q k n i) := by
  have hsecret : pathIsSecret path = false := by
    rcases h with rfl | rfl <;> decide
  have hparse : StatePath.parse path = .ok StatePath.root := by
    simp [StatePath.parse, h]
  simp only [Repository.get, hsecret, headRoot_state, Except.ok_bind,
    parsePath, hparse, liftTree, treeGet, StatePath.root,
    require_state i (mem_objects_root i)]
  rfl

theorem navigate_meta (path : StatePath) (i : Bool) :
    navigate (state q k n i : Storage Id).objects path (root q k n i)
      (.key "_meta") = .ok (metaMap q k n i) := by
  have hget : childIdAt (root q k n i : Object Id) (.key "_meta") =
      some (metaMap q k n i : Object Id).id := by
    simp [childIdAt, root, Object.map]
  rw [navigate_of_childIdAt hget]
  exact require_state i (mem_objects_meta i)

theorem treeGet_meta (i : Bool) :
    treeGet (state q k n i : Storage Id).objects (root q k n i : Object Id).id
      ⟨[.key "_meta"]⟩ = .ok (metaMap q k n i) := by
  simp only [treeGet, require_state i (mem_objects_root i), Except.ok_bind,
    List.foldlM_cons, List.foldlM_nil, navigate_meta]
  rfl

theorem parse_meta : StatePath.parse "/_meta" = .ok ⟨[.key "_meta"]⟩ := by
  decide

theorem get_meta (i : Bool) :
    Repository.new.get (state q k n i : Storage Id) "main" "/_meta" =
      .ok (metaMap q k n i) := by
  have hsecret : pathIsSecret "/_meta" = false := by decide
  simp only [Repository.get, hsecret, headRoot_state, Except.ok_bind,
    parsePath, parse_meta, liftTree, treeGet_meta]
  rfl

theorem levelsToSecret_cases {levels : ℕ}
    (h : levelsToSecret path = some levels) :
    ((path = "" ∨ path = "/") ∧ levels = 2) ∨
      (path = "/_meta" ∧ levels = 1) := by
  simp only [levelsToSecret] at h
  split at h
  next hroot => exact Or.inl ⟨hroot, by simpa using h.symm⟩
  next =>
    split at h
    next hmeta => exact Or.inr ⟨hmeta, by simpa using h.symm⟩
    next => contradiction

theorem getJson_leaks (h : levelsToSecret path ≠ none) :
    ¬(ReadCall.getJson path).Noninterfering Id text := by
  obtain ⟨levels, hlevels⟩ := Option.ne_none_iff_exists'.mp h
  apply ne_of_ne (q := "") (k := 0) (n := 0)
  have hne : secretJson false ≠ secretJson true := by simp [secretJson]
  rcases levelsToSecret_cases hlevels with ⟨hroot, -⟩ | ⟨rfl, -⟩
  · simp only [ReadCall.run, Repository.getJson, get_root hroot,
      Except.ok_bind, treeToJson_root, liftTree]
    intro heq
    have hjson : rootJson (secretJson false) = rootJson (secretJson true) := by
      simpa [Functor.map, Except.map] using heq
    exact hne (rootJson_injective hjson)
  · simp only [ReadCall.run, Repository.getJson, get_meta,
      Except.ok_bind, treeToJson_meta, liftTree]
    intro heq
    have hjson : metaJson (secretJson false) = metaJson (secretJson true) := by
      simpa [Functor.map, Except.map] using heq
    exact hne (metaJson_injective hjson)

theorem getJsonCapped_leaks {depth : ℕ} (h : ¬EndsAbove path depth) :
    ¬(ReadCall.getJsonCapped path depth).Noninterfering Id text := by
  simp only [EndsAbove, not_forall, not_lt] at h
  obtain ⟨levels, hlevels, hdepth⟩ := h
  apply ne_of_ne (q := "") (k := 0) (n := 0)
  rcases levelsToSecret_cases hlevels with ⟨hroot, rfl⟩ | ⟨rfl, rfl⟩
  · obtain ⟨d, rfl⟩ := Nat.exists_eq_add_of_le' hdepth
    obtain ⟨value, hne, hvalue⟩ := exists_toJsonCapped_root Id d
    simp only [ReadCall.run, Repository.getJsonCapped, get_root hroot,
      Except.ok_bind, treeToJsonCapped, hvalue, liftTree]
    intro heq
    have hjson : rootJson (value false) = rootJson (value true) := by
      simpa [Functor.map, Except.map] using heq
    exact hne (rootJson_injective hjson)
  · obtain ⟨d, rfl⟩ := Nat.exists_eq_add_of_le' hdepth
    obtain ⟨value, hne, hvalue⟩ := exists_toJsonCapped_meta Id d
    simp only [ReadCall.run, Repository.getJsonCapped, get_meta,
      Except.ok_bind, treeToJsonCapped, hvalue, liftTree]
    intro heq
    have hjson : metaJson (value false) = metaJson (value true) := by
      simpa [Functor.map, Except.map] using heq
    exact hne (metaJson_injective hjson)

/-! ### Reading several paths -/

/-- What one parsed path contributes to the read of a bare state. -/
def foundJson (Id : Type) [Digest Id] (i : Bool) (p : StatePath) :
    Except (TreeError Id) (Option Json) :=
  match followPath (state "" 0 0 i : Storage Id).objects p.components
      (some (root "" 0 0 i)) with
  | none => .ok none
  | some o => do
      let value ← treeToJson (state "" 0 0 i : Storage Id).objects o
      .ok (some value)

theorem exists_foundJson (i : Bool) (p : StatePath) :
    ∃ value, foundJson Id i p = .ok value := by
  simp only [foundJson]
  split
  next => exact ⟨none, rfl⟩
  next o ho =>
    have hbelow : CompleteBelow (state "" 0 0 i : Storage Id).objects o := by
      refine completeBelow_followPath ?_ ho
      rintro _ ⟨rfl⟩
      exact completeBelow_state i (mem_objects_root i)
    obtain ⟨value, hvalue⟩ := exists_toJson (Digest.rank o.id + 1) hbelow
    refine ⟨some value, ?_⟩
    simp only [treeToJson, hvalue, Except.ok_bind]

theorem getJsonMany_eq_ok {paths : List String} {parsed : List StatePath}
    (hsecret : ∀ p ∈ paths, pathIsSecret p = false)
    (hparsed : paths.mapM (fun p => (liftTree (parsePath p) :
      Except (RepoError Id) StatePath)) = .ok parsed) (i : Bool) :
    ∃ values, Repository.new.getJsonMany (state "" 0 0 i : Storage Id) "main"
        paths = .ok values ∧
      List.Forall₂ (fun p value => foundJson Id i p = .ok value)
        parsed values := by
  have hfind : paths.find? (fun p => pathIsSecret p) = none := by
    rw [List.find?_eq_none]
    intro p hp
    simp [hsecret p hp]
  have hmany : treeGetMany (state "" 0 0 i : Storage Id).objects
      (root "" 0 0 i : Object Id).id parsed =
      .ok (parsed.map fun p => followPath (state "" 0 0 i : Storage Id).objects
        p.components (some (root "" 0 0 i))) := by
    simp only [treeGetMany, require_state i (mem_objects_root i),
      Except.ok_bind]
    rw [descendLevels_eq_ok]
    · simp [Function.comp_def]
    · intro x hx
      obtain ⟨p, hp, rfl⟩ := List.mem_map.mp hx
      refine ⟨List.le_max_of_le' 0 (List.mem_map_of_mem hp) le_rfl, ?_⟩
      rintro _ ⟨rfl⟩
      exact completeBelow_state i (mem_objects_root i)
  obtain ⟨values, hvalues, hall⟩ := Except.exists_mapM_ok (l := parsed)
    (f := foundJson Id i) fun p _ => exists_foundJson i p
  refine ⟨values, ?_, hall⟩
  have htrees : treesToJson (state "" 0 0 i : Storage Id).objects
      (parsed.map fun p => followPath (state "" 0 0 i : Storage Id).objects
        p.components (some (root "" 0 0 i))) = .ok values := by
    rw [← hvalues, treesToJson, List.mapM_map]
    rfl
  simp only [Repository.getJsonMany, hfind]
  rw [hparsed, Except.ok_bind]
  simp only [headRoot_state, Except.ok_bind, hmany, liftTree, htrees]

theorem foundJson_ne {p : StatePath} {value : Option Json}
    (hparse : StatePath.parse path = .ok p) (h : levelsToSecret path ≠ none)
    (hfalse : foundJson Id false p = .ok value) :
    foundJson Id true p ≠ .ok value := by
  have hne : secretJson false ≠ secretJson true := by simp [secretJson]
  obtain ⟨levels, hlevels⟩ := Option.ne_none_iff_exists'.mp h
  intro htrue
  rw [← htrue] at hfalse
  rcases levelsToSecret_cases hlevels with ⟨hroot, -⟩ | ⟨rfl, -⟩
  · have hp : p = StatePath.root := by
      simpa [StatePath.parse, hroot] using hparse.symm
    subst hp
    simp only [foundJson, StatePath.root, followPath, treeToJson_root,
      Except.ok_bind, Except.ok.injEq, Option.some.injEq] at hfalse
    exact hne (rootJson_injective hfalse)
  · have hp : p = ⟨[.key "_meta"]⟩ := by
      rw [parse_meta] at hparse
      exact (Except.ok.inj hparse).symm
    subst hp
    have hfollow : ∀ i, followPath (state "" 0 0 i : Storage Id).objects
        [.key "_meta"] (some (root "" 0 0 i)) = some (metaMap "" 0 0 i) := by
      intro i
      have hget : childIdAt (root "" 0 0 i : Object Id) (.key "_meta") =
          some (metaMap "" 0 0 i : Object Id).id := by
        simp [childIdAt, root, Object.map]
      simp only [followPath, Option.bind_some, hget]
      exact get_storageOf (mem_objects_meta i)
    simp only [foundJson, hfollow, treeToJson_meta, Except.ok_bind,
      Except.ok.injEq, Option.some.injEq] at hfalse
    exact hne (metaJson_injective hfalse)

theorem getJsonMany_leaks {paths : List String}
    (h : ¬(ReadCall.getJsonMany paths).Safe text) :
    ¬(ReadCall.getJsonMany paths).Noninterfering Id text := by
  simp only [ReadCall.Safe, not_or, not_exists, not_and, not_forall] at h
  obtain ⟨hsecret, hbad, path, hpath, hlevels⟩ := h
  have hsecret' : ∀ p ∈ paths, pathIsSecret p = false := by
    intro p hp
    simpa using hsecret p hp
  rcases mapM_parsePath Id paths with ⟨e, -, p, hp, e', he'⟩ | ⟨parsed, hparsed, hall⟩
  · exact absurd he' (hbad p hp e')
  · apply ne_of_ne (q := "") (k := 0) (n := 0)
    obtain ⟨vs, hvs, hvalues⟩ := getJsonMany_eq_ok hsecret' hparsed false
    obtain ⟨vs', hvs', hvalues'⟩ := getJsonMany_eq_ok hsecret' hparsed true
    simp only [ReadCall.run, hvs, hvs']
    intro heq
    have hsame : vs = vs' := by
      simpa [Functor.map, Except.map] using heq
    subst hsame
    obtain ⟨i, hi, rfl⟩ := List.getElem_of_mem hpath
    have hlen := hall.length_eq
    have hlen' := hvalues.length_eq
    have hparse := hall.get (i := i) hi (by omega)
    have hv := hvalues.get (i := i) (by omega) (by omega)
    have hv' := hvalues'.get (i := i) (by omega) (by omega)
    exact foundJson_ne hparse hlevels hv hv'

end Ancestors

/-! ### Listing paths -/

section Listing

variable {s : ObjectStore Id}

theorem collectChildren_leaves {levels : ℕ} {a : Atom} {id : Id}
    (h : s.require id = .ok (.atom a)) (current : String) (keys : List String)
    (paths : List String)
    (hroom : paths.length + keys.length ≤ LIST_PATHS_MAX_RESULTS) :
    collectChildren s (collectPaths s (levels + 1)) current
      (keys.map fun key => (key, id)) paths =
      .ok (paths ++ keys.map fun key => current ++ "/" ++ key) := by
  induction keys generalizing paths with
  | nil =>
      simp only [collectChildren, List.map_nil, List.foldlM_nil,
        List.append_nil]
      rfl
  | cons key keys ih =>
      simp only [List.length_cons] at hroom
      have hnotFull : ¬LIST_PATHS_MAX_RESULTS ≤ paths.length := by omega
      have hpath : leafPath (current ++ "/" ++ key) = current ++ "/" ++ key := by
        simp [leafPath]
      have hstep : collectPaths s (levels + 1) (.atom a)
          (current ++ "/" ++ key) paths =
          .ok (paths ++ [current ++ "/" ++ key]) := by
        simp only [collectPaths, if_neg hnotFull, hpath]
      have hrest := ih (paths ++ [current ++ "/" ++ key])
        (by simp only [List.length_append, List.length_singleton]; omega)
      simp only [collectChildren] at hrest ⊢
      rw [List.map_cons, List.foldlM_cons, h, Except.ok_bind, hstep,
        Except.ok_bind, hrest]
      simp

variable {l : List (String × Id)} {paths : List String}
  {collect : Object Id → String → List String → Except (TreeError Id) (List String)}
  {current : String}

theorem collectPaths_map {levels : ℕ} (hl : (l.map Prod.fst).Pairwise (· < ·))
    (hne : l ≠ []) (hroom : ¬LIST_PATHS_MAX_RESULTS ≤ paths.length)
    (current : String) :
    collectPaths s (levels + 1)
        (Object.map (Std.ExtTreeMap.ofList l compare)) current paths =
      collectChildren s (collectPaths s levels) current l paths := by
  have hempty : (Std.ExtTreeMap.ofList l compare).isEmpty = false := by
    rw [Std.ExtTreeMap.isEmpty_eq_false_iff,
      Std.ExtTreeMap.ofList_eq_empty_iff]
    exact hne
  simp only [collectPaths, Object.map, if_neg hroom, hempty,
    KeyedMap.toList_ofList hl]
  rfl

theorem collectChildren_append {l' : List (String × Id)} {mid : List String}
    (h : collectChildren s collect current l paths = .ok mid) :
    collectChildren s collect current (l ++ l') paths =
      collectChildren s collect current l' mid := by
  simp only [collectChildren] at h ⊢
  rw [List.foldlM_append, h, Except.ok_bind]

theorem collectChildren_cons {key : String} {o : Object Id} {mid : List String}
    (ho : s.require o.id = .ok o)
    (h : collect o (current ++ "/" ++ key) paths = .ok mid) :
    collectChildren s collect current ((key, o.id) :: l) paths =
      collectChildren s collect current l mid := by
  simp only [collectChildren]
  rw [List.foldlM_cons, ho, Except.ok_bind, h, Except.ok_bind]

theorem collectChildren_one {key : String} {o : Object Id}
    (ho : s.require o.id = .ok o) (paths : List String) :
    collectChildren s collect current [(key, o.id)] paths =
      collect o (current ++ "/" ++ key) paths := by
  simp only [collectChildren, List.foldlM_cons, List.foldlM_nil, ho,
    Except.ok_bind]
  exact bind_pure _

end Listing

/-! The states with one leaf less before the secret than a listing holds. -/

section Wide

variable {k : ℕ}

def fillPaths (k : ℕ) : List String :=
  (List.range k).map fun i => "/_meta" ++ "/" ++ fillKey i

theorem length_fillPaths : (fillPaths k).length = k := by simp [fillPaths]

/-- What is listed at `/_meta` once the leaves before the secret are in. -/
theorem collectPaths_wide (hk : k + 1 = LIST_PATHS_MAX_RESULTS) (levels : ℕ)
    (i : Bool) :
    collectPaths (state "" k 0 i : Storage Id).objects (levels + 2) (metaMap "" k 0 i)
        "/_meta" [] =
      collectChildren (state "" k 0 i : Storage Id).objects
        (collectPaths (state "" k 0 i : Storage Id).objects (levels + 1)) "/_meta"
        [("_secret", (secret "" 0 i : Object Id).id),
          ("z", (leaf "" : Object Id).id)] (fillPaths k) := by
  have hfill : collectChildren (state "" k 0 i : Storage Id).objects
      (collectPaths (state "" k 0 i : Storage Id).objects (levels + 1)) "/_meta"
      (fillers "" k) [] = .ok (fillPaths k) := by
    have hkeys : (fillers "" k : List (String × Id)) =
        ((List.range k).map fillKey).map fun key =>
          (key, (leaf "" : Object Id).id) := by
      simp [fillers]
    have hleaf : (state "" k 0 i : Storage Id).objects.require
        (leaf "" : Object Id).id = .ok (.atom (.string "")) :=
      require_state i mem_objects_leaf
    rw [hkeys, collectChildren_leaves hleaf]
    · simp [fillPaths]
    · simp only [List.length_nil, List.length_map, List.length_range]
      omega
  have hroom : ¬LIST_PATHS_MAX_RESULTS ≤ ([] : List String).length := by
    simp [LIST_PATHS_MAX_RESULTS]
  rw [metaMap, collectPaths_map (pairwise_metaEntries i) (by simp [metaEntries])
    hroom, metaEntries, collectChildren_append hfill]

theorem collectPaths_wide_false (hk : k + 1 = LIST_PATHS_MAX_RESULTS)
    (levels : ℕ) :
    collectPaths (state "" k 0 false : Storage Id).objects (levels + 2) (metaMap "" k 0 false)
      "/_meta" [] = .ok (fillPaths k ++ ["/_meta/_secret"]) := by
  have hroom : ¬LIST_PATHS_MAX_RESULTS ≤ (fillPaths k).length := by
    rw [length_fillPaths]
    omega
  have hfull : LIST_PATHS_MAX_RESULTS ≤
      (fillPaths k ++ ["/_meta" ++ "/" ++ "_secret"]).length := by
    rw [List.length_append, length_fillPaths, List.length_singleton]
    omega
  have hsecret : collectPaths (state "" k 0 false : Storage Id).objects (levels + 1)
      (secret "" 0 false) ("/_meta" ++ "/" ++ "_secret") (fillPaths k) =
      .ok (fillPaths k ++ ["/_meta" ++ "/" ++ "_secret"]) := by
    simp [collectPaths, secret, Object.map, hroom, leafPath]
  have hz : collectPaths (state "" k 0 false : Storage Id).objects (levels + 1) (leaf "")
      ("/_meta" ++ "/" ++ "z") (fillPaths k ++ ["/_meta" ++ "/" ++ "_secret"]) =
      .ok (fillPaths k ++ ["/_meta" ++ "/" ++ "_secret"]) := by
    simp only [collectPaths, leaf, Object.string, if_pos hfull]
  rw [collectPaths_wide hk, collectChildren_cons
    (require_state false (mem_objects_secret false)) hsecret,
    collectChildren_cons (require_state false mem_objects_leaf) hz]
  rfl

/-- The other secret lists nothing and leaves the place to the last leaf. -/
theorem collectPaths_wide_true (hk : k + 1 = LIST_PATHS_MAX_RESULTS)
    (levels : ℕ) :
    collectPaths (state "" k 0 true : Storage Id).objects (levels + 2) (metaMap "" k 0 true)
      "/_meta" [] = .ok (fillPaths k ++ ["/_meta/z"]) := by
  have hroom : ¬LIST_PATHS_MAX_RESULTS ≤ (fillPaths k).length := by
    rw [length_fillPaths]
    omega
  have hhidden : collectPaths (state "" k 0 true : Storage Id).objects levels (hidden "" 0)
      ("/_meta" ++ "/" ++ "_secret" ++ "/" ++ "a") (fillPaths k) =
      .ok (fillPaths k) := by
    cases levels with
    | zero => rfl
    | succ levels =>
        simp only [collectPaths, hidden, Object.list, if_neg hroom]
        rfl
  have hsecret : collectPaths (state "" k 0 true : Storage Id).objects (levels + 1)
      (secret "" 0 true) ("/_meta" ++ "/" ++ "_secret") (fillPaths k) =
      .ok (fillPaths k) := by
    simp only [secret, if_true]
    rw [collectPaths_map (by simp) (by simp) hroom, collectChildren_one
      (require_state true mem_objects_hidden), hhidden]
  have hz : collectPaths (state "" k 0 true : Storage Id).objects (levels + 1) (leaf "")
      ("/_meta" ++ "/" ++ "z") (fillPaths k) =
      .ok (fillPaths k ++ ["/_meta" ++ "/" ++ "z"]) := by
    simp [collectPaths, leaf, Object.string, hroom, leafPath]
  rw [collectPaths_wide hk, collectChildren_cons
    (require_state true (mem_objects_secret true)) hsecret,
    collectChildren_cons (require_state true mem_objects_leaf) hz]
  rfl

theorem filter_wide_ne (hk : k + 1 = LIST_PATHS_MAX_RESULTS) :
    ((fillPaths k ++ ["/_meta/_secret"]).take LIST_PATHS_MAX_RESULTS).filter
        (fun p => !pathIsSecret p) ≠
      ((fillPaths k ++ ["/_meta/z"]).take LIST_PATHS_MAX_RESULTS).filter
        (fun p => !pathIsSecret p) := by
  have htake : ∀ path, (fillPaths k ++ [path]).take LIST_PATHS_MAX_RESULTS =
      fillPaths k ++ [path] := by
    intro path
    apply List.take_of_length_le
    rw [List.length_append, length_fillPaths, List.length_singleton]
    omega
  have hz : pathIsSecret "/_meta/z" = false := by decide
  have hmem : "/_meta/z" ∈ (fillPaths k ++ ["/_meta/z"]).filter
      (fun p => !pathIsSecret p) := by
    simp [hz]
  intro heq
  rw [htake, htake] at heq
  rw [← heq, List.mem_filter, List.mem_append, List.mem_singleton] at hmem
  rcases hmem.1 with hfill | hsecret
  · obtain ⟨i, -, hi⟩ := List.mem_map.mp hfill
    have hlast := congrArg String.toList hi
    simp [fillKey, List.replicate_succ] at hlast
  · exact absurd hsecret (by decide)

theorem listPaths_leaks {text : TextTables} {pre : String}
    {maxDepth : Option ℕ}
    (h : ¬(ReadCall.listPaths pre maxDepth).Safe text) :
    ¬(ReadCall.listPaths pre maxDepth).Noninterfering Id text := by
  simp only [ReadCall.Safe, EndsAbove, not_forall, not_lt] at h
  obtain ⟨levels, hlevels, hdepth⟩ := h
  obtain ⟨k, hk⟩ : ∃ k, k + 1 = LIST_PATHS_MAX_RESULTS := ⟨9999, rfl⟩
  have hlist : ∃ d, ∀ i, treeListPaths (state "" k 0 i : Storage Id).objects
      (root "" k 0 i : Object Id).id pre (maxDepth.getD 50) = (do
        let paths ← collectPaths (state "" k 0 i : Storage Id).objects (d + 2)
          (metaMap "" k 0 i) "/_meta" []
        .ok (paths.take LIST_PATHS_MAX_RESULTS)) := by
    rcases levelsToSecret_cases hlevels with ⟨hroot, rfl⟩ | ⟨rfl, rfl⟩
    · obtain ⟨d, hd⟩ := Nat.exists_eq_add_of_le' hdepth
      refine ⟨d, ?_⟩
      intro i
      have hroom : ¬LIST_PATHS_MAX_RESULTS ≤ ([] : List String).length := by
        simp [LIST_PATHS_MAX_RESULTS]
      have hwalk : collectPaths (state "" k 0 i : Storage Id).objects (d + 2 + 1)
          (root "" k 0 i) "" [] = collectPaths (state "" k 0 i : Storage Id).objects (d + 2)
          (metaMap "" k 0 i) "/_meta" [] := by
        rw [root, collectPaths_map (by simp) (by simp) hroom,
          collectChildren_one (require_state i (mem_objects_meta i))]
        rfl
      simp only [treeListPaths, require_state i (mem_objects_root i),
        Except.ok_bind, if_pos hroot, hd, hwalk]
    · obtain ⟨d, hd⟩ := Nat.exists_eq_add_of_le' hdepth
      refine ⟨d, ?_⟩
      intro i
      have hne : ¬("/_meta" = "" ∨ "/_meta" = "/") := by decide
      simp only [treeListPaths, require_state i (mem_objects_root i),
        Except.ok_bind, if_neg hne, hd, parsePath, parse_meta, treeGet_meta]
  obtain ⟨d, hlist⟩ := hlist
  have hsecret : pathIsSecret pre = false := by
    rcases levelsToSecret_cases hlevels with ⟨rfl | rfl, -⟩ | ⟨rfl, -⟩ <;> decide
  apply ne_of_ne (q := "") (k := k) (n := 0)
  simp only [ReadCall.run, Repository.listPaths, hsecret, headRoot_state,
    Except.ok_bind, hlist, collectPaths_wide_false hk, collectPaths_wide_true hk,
    liftTree]
  intro heq
  apply filter_wide_ne hk
  simpa [Functor.map, Except.map] using heq

end Wide

/-! ### Searching -/

section Searching

variable {s : ObjectStore Id} {text : TextTables} {query : String} {limit : ℕ}

section

variable {levels : ℕ} {current : String} {results : List (String × String)}

theorem searchRecursive_below {o : Object Id} (hcurrent : current ≠ "")
    {results' : List (String × String)}
    (h : searchRecursive text query limit s levels o current results =
      .ok results') :
    ∀ r ∈ results', r ∈ results ∨ current.toList <+: r.1.toList := by
  induction levels generalizing o current results results' with
  | zero =>
      cases h
      exact fun r hr => Or.inl hr
  | succ levels ih =>
      have hchildren : ∀ onKey : String → List (String × String) →
            List (String × String),
          (∀ key acc, ∀ r ∈ onKey key acc,
            r ∈ acc ∨ current.toList <+: r.1.toList) →
          ∀ children : List (String × Id),
          searchChildren limit s (searchRecursive text query limit s levels)
            onKey current children results = .ok results' →
          ∀ r ∈ results', r ∈ results ∨ current.toList <+: r.1.toList := by
        intro onKey honKey children hrun
        refine Except.foldlM_invariant
          (P := fun acc => ∀ r ∈ acc,
            r ∈ results ∨ current.toList <+: r.1.toList) ?_
          (fun r hr => Or.inl hr) hrun
        intro acc x _ acc' hacc hstep r hr
        split at hstep
        · cases hstep
          exact hacc r hr
        · obtain ⟨c, -, hf⟩ := Except.bind_eq_ok_iff.mp hstep
          rcases ih (by simp) hf r hr with hold | hpre
          · rcases honKey x.1 acc r hold with hin | hpre
            · exact hacc r hin
            · exact Or.inr hpre
          · refine Or.inr (List.IsPrefix.trans ?_ hpre)
            simp only [String.toList_append, List.append_assoc]
            exact List.prefix_append _ _
      by_cases hfull : limit ≤ results.length
      · have hsame : results = results' := by
          cases o <;> simpa [searchRecursive, hfull] using h
        rw [hsame]
        exact fun r hr => Or.inl hr
      · have hmatch : ∀ key acc, ∀ r ∈ matchKey text query current key acc,
            r ∈ acc ∨ current.toList <+: r.1.toList := by
          intro key acc r hr
          simp only [matchKey] at hr
          split at hr
          · rcases List.mem_append.mp hr with hold | hnew
            · exact Or.inl hold
            · rw [List.mem_singleton.mp hnew]
              simp only [String.toList_append, List.append_assoc]
              exact Or.inr (List.prefix_append _ _)
          · exact Or.inl hr
        cases o with
        | atom a =>
            simp only [searchRecursive, if_neg hfull] at h
            split at h
            · cases h
              exact fun r hr => Or.inl hr
            · split at h
              · cases h
                intro r hr
                rcases List.mem_append.mp hr with hold | hnew
                · exact Or.inl hold
                · rw [List.mem_singleton.mp hnew]
                  simp [leafPath, hcurrent]
              · cases h
                exact fun r hr => Or.inl hr
        | node n =>
            cases n with
            | list items =>
                simp only [searchRecursive, if_neg hfull] at h
                exact hchildren _ (fun _ _ r hr => Or.inl hr) _ h
            | set items =>
                simp only [searchRecursive, if_neg hfull] at h
                exact hchildren _ (fun _ _ r hr => Or.inl hr) _ h
            | map entries =>
                simp only [searchRecursive, if_neg hfull] at h
                exact hchildren _ hmatch _ h

/-- One child, while there is room. -/
theorem searchChildren_cons {search : Object Id → String →
      List (String × String) → Except (TreeError Id) (List (String × String))}
    {onKey : String → List (String × String) → List (String × String)}
    {key : String} {o : Object Id} {l : List (String × Id)}
    {mid : List (String × String)} (ho : s.require o.id = .ok o)
    (hroom : results.length < limit)
    (h : search o (current ++ "/" ++ key) (onKey key results) = .ok mid) :
    searchChildren limit s search onKey current ((key, o.id) :: l) results =
      searchChildren limit s search onKey current l mid := by
  simp only [searchChildren]
  rw [List.foldlM_cons, if_neg (by omega), ho, Except.ok_bind, h,
    Except.ok_bind]

theorem searchChildren_full {search : Object Id → String →
      List (String × String) → Except (TreeError Id) (List (String × String))}
    {onKey : String → List (String × String) → List (String × String)}
    (l : List (String × Id)) (h : limit ≤ results.length) :
    searchChildren limit s search onKey current l results = .ok results := by
  induction l with
  | nil => rfl
  | cons e l ih =>
      simp only [searchChildren] at ih ⊢
      rw [List.foldlM_cons, if_pos h, Except.ok_bind, ih]

theorem searchRecursive_map {l : List (String × Id)}
    (hl : (l.map Prod.fst).Pairwise (· < ·)) (hroom : results.length < limit)
    (current : String) :
    searchRecursive text query limit s (levels + 1)
        (Object.map (Std.ExtTreeMap.ofList l compare)) current results =
      searchChildren limit s (searchRecursive text query limit s levels)
        (matchKey text query current) current l results := by
  have hnotFull : ¬limit ≤ results.length := by omega
  simp only [searchRecursive, Object.map, if_neg hnotFull,
    KeyedMap.toList_ofList hl]

theorem searchRecursive_full (levels : ℕ) (o : Object Id) (current : String)
    (h : limit ≤ results.length) :
    searchRecursive text query limit s levels o current results =
      .ok results := by
  cases levels with
  | zero => rfl
  | succ levels => cases o <;> simp only [searchRecursive, if_pos h]

theorem searchRecursive_list {items : List Id} (hroom : ¬limit ≤ results.length)
    (current : String) :
    searchRecursive text query limit s (levels + 1) (Object.list items) current
        results =
      searchChildren limit s (searchRecursive text query limit s levels)
        (fun _ results => results) current (indexed items) results := by
  simp only [searchRecursive, Object.list, if_neg hroom]

end

variable {q : String}

/-- A leaf that holds the query is a hit, while there is room. -/
theorem searchRecursive_leaf (levels : ℕ) {current : String}
    {results : List (String × String)} (hroom : results.length < limit) :
    searchRecursive text (text.toLowercase q) limit s (levels + 1) (leaf q)
        current results = .ok (results ++ [(leafPath current, q)]) := by
  have hnotFull : ¬limit ≤ results.length := by omega
  have hcontains :
      contains (text.toLowercase q) (text.toLowercase q) = true := by
    simp [contains]
  simp only [searchRecursive, leaf, Object.string, searchText,
    if_neg hnotFull, hcontains, if_true]

theorem exists_searchChildren_leaves (text : TextTables) (levels : ℕ)
    (current : String)
    (h : s.require (leaf q : Object Id).id = .ok (leaf q))
    (keys : List String) (results : List (String × String))
    (hmany : limit ≤ results.length + keys.length) :
    ∃ results', searchChildren limit s
        (searchRecursive text (text.toLowercase q) limit s (levels + 1))
        (fun _ results => results) current
        (keys.map fun key => (key, (leaf q : Object Id).id)) results =
        .ok results' ∧ limit ≤ results'.length := by
  induction keys generalizing results with
  | nil => exact ⟨results, rfl, by simpa using hmany⟩
  | cons key keys ih =>
      by_cases hfull : limit ≤ results.length
      · exact ⟨results, searchChildren_full _ hfull, hfull⟩
      · have hroom : results.length < limit := by omega
        obtain ⟨results', hrun, hlen⟩ := ih
          (results ++ [(leafPath (current ++ "/" ++ key), q)])
          (by
            simp only [List.length_append, List.length_cons] at hmany ⊢
            omega)
        refine ⟨results', ?_, hlen⟩
        rw [List.map_cons, searchChildren_cons h hroom
          (searchRecursive_leaf levels hroom), hrun]

/-- The results in front of the secret: the two names that lead to it. -/
def namesFound (text : TextTables) (q : String) : List (String × String) :=
  matchKey text (text.toLowercase q) "/_meta" "_secret"
    (matchKey text (text.toLowercase q) "" "_meta" [])

theorem length_namesFound :
    (namesFound text q).length =
      nameHits text (text.toLowercase q) SECRET_KEYS := by
  calc (namesFound text q).length
      = (namesFound text q).length + nameHits text (text.toLowercase q) [] := rfl
    _ = (matchKey text (text.toLowercase q) "" "_meta" []).length +
          nameHits text (text.toLowercase q) ["_secret"] :=
        length_matchKey _ _ _ _
    _ = ([] : List (String × String)).length +
          nameHits text (text.toLowercase q) SECRET_KEYS :=
        length_matchKey _ _ _ _
    _ = nameHits text (text.toLowercase q) SECRET_KEYS := by simp

theorem namesFound_path {r : String × String} (h : r ∈ namesFound text q) :
    r.1 = "/_meta" ∨ r.1 = "/_meta/_secret" := by
  simp only [namesFound, matchKey] at h
  split at h
  · rcases List.mem_append.mp h with houter | hinner
    · split at houter
      · rw [List.mem_append, List.mem_singleton] at houter
        rcases houter with hnil | rfl
        · simp at hnil
        · exact Or.inl rfl
      · simp at houter
    · rw [List.mem_singleton.mp hinner]
      exact Or.inr rfl
  · split at h
    · rw [List.mem_append, List.mem_singleton] at h
      rcases h with hnil | rfl
      · simp at hnil
      · exact Or.inl rfl
    · simp at h

theorem treeSearchValues_state {n maxResults : ℕ}
    (hroom : nameHits text (text.toLowercase q) SECRET_KEYS <
      min maxResults LIST_PATHS_MAX_RESULTS) (i : Bool)
    {mid : List (String × String)}
    (h : searchRecursive text (text.toLowercase q)
      (min maxResults LIST_PATHS_MAX_RESULTS)
      (state q 0 n i : Storage Id).objects 127 (secret q n i) "/_meta/_secret"
      (namesFound text q) = .ok mid) :
    treeSearchValues text (state q 0 n i : Storage Id).objects
        (root q 0 n i : Object Id).id q maxResults =
      searchChildren (min maxResults LIST_PATHS_MAX_RESULTS)
        (state q 0 n i : Storage Id).objects
        (searchRecursive text (text.toLowercase q)
          (min maxResults LIST_PATHS_MAX_RESULTS)
          (state q 0 n i : Storage Id).objects 127)
        (matchKey text (text.toLowercase q) "/_meta") "/_meta"
        [("z", (leaf q : Object Id).id)] mid := by
  have hlen : (namesFound text q).length =
      nameHits text (text.toLowercase q) SECRET_KEYS := length_namesFound
  have hmeta : (matchKey text (text.toLowercase q) "" "_meta" []).length ≤
      (namesFound text q).length := le_length_matchKey _ _ _
  have hinner : searchRecursive text (text.toLowercase q)
      (min maxResults LIST_PATHS_MAX_RESULTS)
      (state q 0 n i : Storage Id).objects 128 (metaMap q 0 n i) "/_meta"
      (matchKey text (text.toLowercase q) "" "_meta" []) =
      searchChildren (min maxResults LIST_PATHS_MAX_RESULTS)
        (state q 0 n i : Storage Id).objects
        (searchRecursive text (text.toLowercase q)
          (min maxResults LIST_PATHS_MAX_RESULTS)
          (state q 0 n i : Storage Id).objects 127)
        (matchKey text (text.toLowercase q) "/_meta") "/_meta"
        [("z", (leaf q : Object Id).id)] mid := by
    rw [metaMap, searchRecursive_map (pairwise_metaEntries i) (by omega)]
    exact searchChildren_cons (require_state i (mem_objects_secret i))
      (by omega) h
  have hroot : searchRecursive text (text.toLowercase q)
      (min maxResults LIST_PATHS_MAX_RESULTS)
      (state q 0 n i : Storage Id).objects 129 (root q 0 n i) "" [] =
      searchRecursive text (text.toLowercase q)
      (min maxResults LIST_PATHS_MAX_RESULTS)
      (state q 0 n i : Storage Id).objects 128 (metaMap q 0 n i) "/_meta"
      (matchKey text (text.toLowercase q) "" "_meta" []) := by
    rw [root, searchRecursive_map (by simp) (by simp; omega)]
    simp only [searchChildren, List.foldlM_cons, List.foldlM_nil]
    rw [if_neg (by simp; omega), require_state i (mem_objects_meta i),
      Except.ok_bind]
    exact bind_pure _
  simp only [treeSearchValues, require_state i (mem_objects_root i),
    Except.ok_bind, LIST_PATHS_HARD_CEILING]
  rw [hroot, hinner]

/-- With the empty secret the last leaf is found. -/
theorem exists_search_false (Id : Type) [Digest Id] {n maxResults : ℕ}
    (hroom : nameHits text (text.toLowercase q) SECRET_KEYS <
      min maxResults LIST_PATHS_MAX_RESULTS) :
    ∃ results, treeSearchValues text (state q 0 n false : Storage Id).objects
        (root q 0 n false : Object Id).id q maxResults = .ok results ∧
      ∃ value, ("/_meta/z", value) ∈ results := by
  have hlen : (namesFound text q).length =
      nameHits text (text.toLowercase q) SECRET_KEYS := length_namesFound
  have hroom' : (namesFound text q).length <
      min maxResults LIST_PATHS_MAX_RESULTS := by omega
  have hsecret : searchRecursive text (text.toLowercase q)
      (min maxResults LIST_PATHS_MAX_RESULTS)
      (state q 0 n false : Storage Id).objects 127 (secret q n false)
      "/_meta/_secret" (namesFound text q) = .ok (namesFound text q) := by
    simp only [secret]
    rw [searchRecursive_map (by simp) hroom']
    rfl
  rw [treeSearchValues_state hroom false hsecret]
  by_cases hfull : min maxResults LIST_PATHS_MAX_RESULTS ≤
      (matchKey text (text.toLowercase q) "/_meta" "z" (namesFound text q)).length
  · refine ⟨matchKey text (text.toLowercase q) "/_meta" "z"
      (namesFound text q), ?_, "[key match: z]", ?_⟩
    · have hleaf : searchRecursive text (text.toLowercase q)
          (min maxResults LIST_PATHS_MAX_RESULTS)
          (state q 0 n false : Storage Id).objects 127 (leaf q)
          ("/_meta" ++ "/" ++ "z") (matchKey text (text.toLowercase q) "/_meta"
            "z" (namesFound text q)) =
          .ok (matchKey text (text.toLowercase q) "/_meta" "z"
            (namesFound text q)) := by
        simp only [searchRecursive, leaf, Object.string, if_pos hfull]
      rw [searchChildren_cons (require_state false mem_objects_leaf) hroom'
        hleaf]
      rfl
    · simp only [matchKey] at hfull ⊢
      split
      · rw [List.mem_append, List.mem_singleton]
        exact Or.inr rfl
      · rename_i hno
        rw [if_neg hno] at hfull
        omega
  · refine ⟨matchKey text (text.toLowercase q) "/_meta" "z"
      (namesFound text q) ++ [("/_meta/z", q)], ?_, q, ?_⟩
    · rw [searchChildren_cons (require_state false mem_objects_leaf) hroom'
        (searchRecursive_leaf 126 (by omega))]
      rfl
    · simp

theorem exists_search_true (Id : Type) [Digest Id] {n maxResults : ℕ}
    (hn : min maxResults LIST_PATHS_MAX_RESULTS ≤ n)
    (hroom : nameHits text (text.toLowercase q) SECRET_KEYS <
      min maxResults LIST_PATHS_MAX_RESULTS) :
    ∃ results, treeSearchValues text
        (state q 0 n true : Storage Id).objects
        (root q 0 n true : Object Id).id q maxResults =
        .ok results ∧ ∀ value, ("/_meta/z", value) ∉ results := by
  have hlen : (namesFound text q).length =
      nameHits text (text.toLowercase q) SECRET_KEYS := length_namesFound
  have hroom' : (namesFound text q).length <
      min maxResults LIST_PATHS_MAX_RESULTS := by omega
  have hsecret : ∃ mid, searchRecursive text (text.toLowercase q)
      (min maxResults LIST_PATHS_MAX_RESULTS)
      (state q 0 n true : Storage Id).objects 127
      (secret q n true) "/_meta/_secret"
      (namesFound text q) = .ok mid ∧
      min maxResults LIST_PATHS_MAX_RESULTS ≤ mid.length := by
    have hkeys : indexed (List.replicate n
        (leaf q : Object Id).id) =
        ((List.range n).map Nat.repr).map fun key =>
          (key, (leaf q : Object Id).id) := by
      simp only [indexed]
      apply List.ext_getElem
      · simp
      · intro j h₁ h₂
        simp
    have hone : ∀ mid, searchRecursive text (text.toLowercase q)
        (min maxResults LIST_PATHS_MAX_RESULTS)
        (state q 0 n true : Storage Id).objects 126
        (hidden q n) ("/_meta/_secret" ++ "/" ++ "a")
        (matchKey text (text.toLowercase q) "/_meta/_secret" "a"
          (namesFound text q)) = .ok mid →
        searchRecursive text (text.toLowercase q)
          (min maxResults LIST_PATHS_MAX_RESULTS)
          (state q 0 n true : Storage Id).objects 127
          (secret q n true) "/_meta/_secret"
          (namesFound text q) = .ok mid := by
      intro mid hmid
      simp only [secret, if_true]
      rw [searchRecursive_map (by simp) hroom', searchChildren_cons
        (require_state true mem_objects_hidden) hroom' hmid]
      rfl
    by_cases hfull : min maxResults LIST_PATHS_MAX_RESULTS ≤
        (matchKey text (text.toLowercase q) "/_meta/_secret" "a"
          (namesFound text q)).length
    · refine ⟨_, hone _ ?_, hfull⟩
      exact searchRecursive_full 126 _ _ hfull
    · have hleaf : (state q 0 n true : Storage Id).objects.require
          (leaf q : Object Id).id = .ok (leaf q) :=
        require_state true mem_objects_leaf
      have hmany : min maxResults LIST_PATHS_MAX_RESULTS ≤
          (matchKey text (text.toLowercase q) "/_meta/_secret" "a"
            (namesFound text q)).length +
          ((List.range n).map Nat.repr).length := by
        rw [List.length_map, List.length_range]
        exact hn.trans (Nat.le_add_left _ _)
      obtain ⟨mid, hmid, hlong⟩ := exists_searchChildren_leaves text 124
        ("/_meta/_secret" ++ "/" ++ "a") hleaf _ _ hmany
      refine ⟨mid, hone _ ?_, hlong⟩
      rw [← hmid, ← hkeys]
      exact searchRecursive_list hfull _
  obtain ⟨mid, hmid, hfull⟩ := hsecret
  refine ⟨mid, ?_, ?_⟩
  · rw [treeSearchValues_state hroom true hmid, searchChildren_full _ hfull]
  · intro value hmem
    rcases searchRecursive_below (by decide) hmid _ hmem with hold | hpre
    · rcases namesFound_path hold with heq | heq
      · exact absurd heq (by decide : "/_meta/z" ≠ "/_meta")
      · exact absurd heq (by decide : "/_meta/z" ≠ "/_meta/_secret")
    · exact absurd hpre
        (by decide : ¬"/_meta/_secret".toList <+: "/_meta/z".toList)

theorem searchValues_leaks {maxResults : Option ℕ}
    (h : ¬(ReadCall.searchValues q maxResults).Safe text) :
    ¬(ReadCall.searchValues q maxResults).Noninterfering Id text := by
  simp only [ReadCall.Safe, not_le] at h
  obtain ⟨n, hn⟩ : ∃ n, min (maxResults.getD 50) LIST_PATHS_MAX_RESULTS ≤ n :=
    ⟨_, le_rfl⟩
  apply ne_of_ne (q := q) (k := 0) (n := n)
  obtain ⟨results, hfalse, value, hmem⟩ := exists_search_false Id (n := n) h
  obtain ⟨results', htrue, hnone⟩ := exists_search_true Id hn h
  simp only [ReadCall.run, Repository.searchValues, headRoot_state,
    Except.ok_bind, hfalse, htrue, liftTree]
  intro heq
  have hfilter : results.filter (fun r => !pathIsSecret r.1) =
      results'.filter fun r => !pathIsSecret r.1 := by
    simpa [Functor.map, Except.map] using heq
  have hz : pathIsSecret "/_meta/z" = false := by decide
  have hkept : ("/_meta/z", value) ∈
      results.filter fun r => !pathIsSecret r.1 := by
    simp [hmem, hz]
  rw [hfilter, List.mem_filter] at hkept
  exact hnone value hkept.1

end Searching

end Leak

/-! ## Which reads keep the secret -/

end AgentStateGraph
