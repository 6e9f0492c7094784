import AgentStateGraph.Repo.Transactions
import AgentStateGraph.Tree.Maps

/-!
# What lands on a ref

A write that lands takes its ref from one head to a later one, whose state is
the old one with a value set or a subtree gone.  What was read while the ref
stood at that head still reads so when the write lands.
-/

namespace AgentStateGraph

variable {Id : Type} [Digest Id]

namespace Storage

/-- A ref left `head` for a state with a value set. -/
structure Sets (ns name : String) (s t : Storage Id) (head root newRoot : Id)
    (path : StatePath) (value : Json) : Prop where
  lands : s.LandsOn ns name t head newRoot
  moved : t.refAt ns name ≠ s.refAt ns name
  rootOf : s.rootOf head = some root
  sets : SetsAt t.objects root newRoot path.components value

/-- A ref left `head` for a state with a subtree gone. -/
structure Deletes (ns name : String) (s t : Storage Id) (head root newRoot : Id)
    (path : StatePath) : Prop where
  lands : s.LandsOn ns name t head newRoot
  moved : t.refAt ns name ≠ s.refAt ns name
  rootOf : s.rootOf head = some root
  removed : ∃ objects, treeDelete s.objects root path = (.ok newRoot, objects) ∧
    objects ≤ t.objects

theorem Lands.landsOn {ns name : String} {s built t : Storage Id}
    {head : Id} {c : Commit Id} (hadds : s.AddsObjects built)
    (hlands : built.Lands ns name c t) (hparents : c.parents = [head])
    (hhead : s.refAt ns name = some head) :
    s.LandsOn ns name t head c.stateRoot ∧
      t.refAt ns name ≠ s.refAt ns name := by
  have hafter : t.refAt ns name = some c.id := by simp [hlands.refAt]
  refine ⟨⟨⟨?_, ?_, ?_⟩, hhead, c.id, hafter,
    rootOf_of_getCommit hlands.getCommit, ?_⟩, ?_⟩
  · rw [hlands.objects]
    exact hadds.grows.objects
  · exact hadds.grows.commits.trans hlands.commits_le
  · rw [hlands.namespaces, hadds.namespaces]
  · apply CommitStore.IsAncestor.of_mem_parents
    rw [CommitStore.parents_of_get hlands.getCommit, hparents]
    exact List.mem_singleton_self _
  · have hlt : Digest.rank head < Digest.rank c.id :=
      Commit.rank_lt_of_mem_parents (by simp [hparents])
    rw [hafter, hhead]
    intro hsame
    rw [Option.some.injEq] at hsame
    rw [hsame] at hlt
    exact lt_irrefl _ hlt

end Storage

namespace Repository

variable (repo : Repository)

/-- `set_json_cas` was refused, or it landed. -/
theorem setJsonCas_sets (store : Storage Id) (refName : String)
    (expectedHead : Id) (path : String) (value : Json) (options : CommitOptions)
    (fired : List Escalation) (now : ℕ → ℤ) :
    repo.Refused refName store (repo.setJsonCas store refName expectedHead path
        value options fired now) ∨
      ∃ root newRoot p, StatePath.parse path = .ok p ∧
        Storage.Sets repo.activeNamespace refName store (repo.setJsonCas store
          refName expectedHead path value options fired now).2 expectedHead root
          newRoot p value := by
  rcases repo.setJsonCas_built store refName expectedHead path value options
    fired now with hrefused | ⟨root, newRoot, p, objects, hroot, hp, hset, hle,
      hlands, hmoved⟩
  · exact Or.inl hrefused
  · refine Or.inr ⟨root, newRoot, p, hp, hlands, ?_, hroot,
      (setsAt_treeSet hset).mono hle⟩
    rw [hlands.before]
    exact hmoved

theorem landCommit_namespaces (store : Storage Id) (refName : String)
    (head newRoot : Id) (isBranch : Bool) (options : CommitOptions) (now : ℤ) :
    (repo.landCommit store refName head isBranch newRoot options
      now).2.namespaces = store.namespaces := by
  have hadds := repo.createCommit_addsCommit store newRoot [head] options now
  unfold landCommit
  split
  next e stored hcreate =>
    rw [hcreate] at hadds
    exact hadds.namespaces
  next c stored hcreate =>
    rw [hcreate] at hadds
    split
    next => exact hadds.namespaces
    next moved hmove =>
      rw [(repo.moveRef_eq_ok_true hmove).1]
      exact hadds.namespaces
    next kept hmove =>
      unfold moveRef at hmove
      split at hmove
      next =>
        rcases repo.advanceRef_eq_ok hmove with ⟨htrue, -, -⟩ | ⟨-, -, rfl⟩
        · simp at htrue
        · exact hadds.namespaces
      next =>
        obtain ⟨s, -, hmove⟩ := Except.bind_eq_ok_iff.mp hmove
        simp at hmove

theorem writeLoop_namespaces {refName : String} {build : BuildRoot Id}
    (hbuild : build.OnlyAdds) (options : CommitOptions) (now : ℕ → ℤ)
    (store : Storage Id) :
    (repo.writeLoop refName build options now store).2.namespaces =
      store.namespaces := by
  refine casLoop_invariant (P := fun s => s.namespaces = store.namespaces) ?_ rfl
  intro i mid hmid
  unfold writeAttempt
  split
  next => exact hmid
  next head isBranch _ =>
    split
    next => exact hmid
    next root _ =>
      have hadds := hbuild mid root
      split
      next e built hb =>
        rw [hb] at hadds
        rw [hadds.namespaces, hmid]
      next newRoot built hb =>
        rw [hb] at hadds
        rw [landCommit_namespaces, hadds.namespaces, hmid]

/-- On a branch, `delete` was refused, or it landed. -/
theorem delete_deletes {store : Storage Id} {refName : String} {head : Id}
    (hhead : store.refAt repo.activeNamespace refName = some head)
    (path : String) (options : CommitOptions) (now : ℕ → ℤ) :
    repo.Refused refName store (repo.delete store refName path options now) ∨
      ∃ root newRoot p, StatePath.parse path = .ok p ∧
        Storage.Deletes repo.activeNamespace refName store
          (repo.delete store refName path options now).2 head root newRoot p := by
  unfold delete
  split
  next e _ =>
    exact Or.inl (repo.refused_of_grows (Storage.Grows.refl store) rfl)
  next hcheck =>
    split
    next e _ =>
      exact Or.inl (repo.refused_of_grows (Storage.Grows.refl store) rfl)
    next p hp =>
      have hns := @writeLoop_namespaces Id _ repo refName _
        (deleteRoot_onlyAdds p) options now store
      cases hloop : repo.writeLoop refName (deleteRoot p) options now store with
      | mk result store' =>
          rw [hloop] at hns
          cases result with
          | error e =>
              exact Or.inl (repo.refused_of_grows
                (repo.writeLoop_eq_error (deleteRoot_onlyAdds p) hloop) hns)
          | ok id =>
              obtain ⟨head', isBranch, root, newRoot, built, hread, hroot, hb,
                -, hlands⟩ := repo.writeLoop_eq_ok (deleteRoot_onlyAdds p) hloop
              have hsame : head' = head := by
                rcases repo.headForWrite_eq_ok hread with
                  ⟨-, href⟩ | ⟨-, hnone, -⟩
                · exact Option.some.inj (href.symm.trans hhead)
                · rw [hhead] at hnone
                  contradiction
              subst hsame
              have hadds : store.AddsObjects built := by
                have hadds := deleteRoot_onlyAdds p store root
                rwa [hb] at hadds
              obtain ⟨hon, hmoved⟩ := hlands.landsOn hadds rfl hhead
              exact Or.inr ⟨root, newRoot, p, parsePath_eq_ok hp, hon, hmoved,
                hroot, built.objects, deleteRoot_eq_ok hb, hlands.objects.ge⟩

/-! ## Reads that stay -/

section Reads

variable {s t : Storage Id} {refName : String} {head : Id}

/-- What a read at a head needs of a store that stands there too. -/
structure SameHead (refName : String) (s t : Storage Id) : Prop where
  expands : s.Expands t
  refAt : t.refAt repo.activeNamespace refName =
    s.refAt repo.activeNamespace refName
  branch : ∃ head, s.refAt repo.activeNamespace refName = some head

variable {repo}

theorem SameHead.resolveRef (h : repo.SameHead refName s t) {id : Id}
    (hres : repo.resolveRef s refName = .ok id) :
    repo.resolveRef t refName = .ok id := by
  obtain ⟨head, hhead⟩ := h.branch
  have hns : repo.activeNamespace ∈ s.namespaces := by
    by_contra hns
    simp [Repository.resolveRef, Storage.getRef, hns, liftStorage] at hres
  rw [repo.resolveRef_of_refAt hns hhead, Except.ok.injEq] at hres
  subst hres
  exact repo.resolveRef_of_refAt (h.expands.namespaces ▸ hns)
    (h.refAt.trans hhead)

theorem SameHead.headRoot (h : repo.SameHead refName s t) {root : Id}
    (hroot : repo.headRoot s refName = .ok root) :
    repo.headRoot t refName = .ok root := by
  unfold Repository.headRoot at hroot ⊢
  refine Except.bind_mono (fun id hid => h.resolveRef hid) ?_ hroot
  intro id hid
  split at hid
  next c hc =>
    have hc' : t.getCommit id = some c := h.expands.commits _ _ hc
    rw [hc']
    exact hid
  next => contradiction

/-- A document that was read reads the same. -/
theorem SameHead.getJson (h : repo.SameHead refName s t) {path : String}
    {value : Json} (hread : repo.getJson s refName path = .ok value) :
    repo.getJson t refName path = .ok value := by
  obtain ⟨head, hhead⟩ := h.branch
  obtain ⟨hsecret, hns, root, p, hroot, hp, hvalue⟩ :=
    repo.getJson_eq_ok hhead hread
  exact repo.getJson_of_readsAt (h.expands.namespaces ▸ hns)
    (h.refAt.trans hhead) (Storage.rootOf_of_le h.expands.commits hroot) hp
    hsecret (hvalue.mono h.expands.objects)

theorem getJson_pathNotFound {path q : String}
    (hhead : s.refAt repo.activeNamespace refName = some head)
    (hread : repo.getJson s refName path = .error (.tree (.pathNotFound q))) :
    pathIsSecret path = false ∧ ∃ root, repo.headRoot s refName = .ok root ∧
      ((∃ e, StatePath.parse path = .error e ∧ q = e.toString) ∨
        ∃ p, StatePath.parse path = .ok p ∧
          treeGet s.objects root p = .error (.pathNotFound q)) := by
  have hget : repo.get s refName path = .error (.tree (.pathNotFound q)) := by
    rcases Except.bind_eq_error_iff.mp hread with hget | ⟨o, -, hjson⟩
    · exact hget
    · cases htree : treeToJson s.objects o with
      | ok v => simp [htree, liftTree] at hjson
      | error e =>
          obtain ⟨id, rfl⟩ := toJson_eq_error htree
          simp [htree, liftTree] at hjson
  unfold Repository.get at hget
  split at hget
  next => simp at hget
  next hsecret =>
    refine ⟨by simpa using hsecret, ?_⟩
    rcases Except.bind_eq_error_iff.mp hget with hroot | ⟨root, hroot, hget⟩
    · exfalso
      unfold Repository.headRoot at hroot
      rcases Except.bind_eq_error_iff.mp hroot with hres | ⟨id, -, hcommit⟩
      · by_cases hns : repo.activeNamespace ∈ s.namespaces
        · rw [repo.resolveRef_of_refAt hns hhead] at hres
          contradiction
        · simp [Repository.resolveRef, Storage.getRef, hns, liftStorage] at hres
      · split at hcommit <;> simp at hcommit
    · refine ⟨root, hroot, ?_⟩
      rcases Except.bind_eq_error_iff.mp hget with hparse | ⟨p, hp, hget⟩
      · left
        unfold parsePath at hparse
        split at hparse
        next => contradiction
        next e he =>
          simp only [liftTree, Except.error.injEq, RepoError.tree.injEq,
            TreeError.pathNotFound.injEq] at hparse
          exact ⟨e, he, hparse.symm⟩
      · right
        refine ⟨p, parsePath_eq_ok hp, ?_⟩
        cases htree : treeGet s.objects root p with
        | ok o => simp [htree, liftTree] at hget
        | error e =>
            simp only [htree, liftTree, Except.error.injEq,
              RepoError.tree.injEq] at hget
            rw [hget]

theorem SameHead.getJson_pathNotFound (h : repo.SameHead refName s t)
    {path q : String}
    (hread : repo.getJson s refName path = .error (.tree (.pathNotFound q))) :
    repo.getJson t refName path = .error (.tree (.pathNotFound q)) := by
  obtain ⟨head, hhead⟩ := h.branch
  obtain ⟨hsecret, root, hroot, hcase⟩ :=
    Repository.getJson_pathNotFound hhead hread
  have hroot' := h.headRoot hroot
  rcases hcase with ⟨e, hparse, rfl⟩ | ⟨p, hparse, htree⟩
  · simp [Repository.getJson, Repository.get, hsecret, hroot', parsePath, hparse,
      liftTree]
  · have htree' := (treeGet_pathNotFound h.expands.objects htree).2
    simp [Repository.getJson, Repository.get, hsecret, hroot', parsePath, hparse,
      liftTree, htree']

theorem SameHead.listPaths (h : repo.SameHead refName s t) {pre : String}
    {maxDepth : Option ℕ} {paths : List String}
    (hread : repo.listPaths s refName pre maxDepth = .ok paths) :
    repo.listPaths t refName pre maxDepth = .ok paths := by
  unfold Repository.listPaths at hread ⊢
  split at hread
  next => contradiction
  next hsecret =>
    rw [if_neg hsecret]
    refine Except.bind_mono (fun root hroot => h.headRoot hroot) ?_ hread
    intro root hroot
    refine Except.bind_mono ?_ (fun _ hr => hr) hroot
    intro found hfound
    exact liftTree_eq_ok_iff.mpr
      (treeListPaths_mono h.expands.objects (liftTree_eq_ok_iff.mp hfound))

end Reads

end Repository

/-! ## Programs -/

namespace RepoProgram

open Program

variable {τ ε α β : Type} (repo : Repository) (refName : String)

/-- The state after a write to a ref. -/
def landed (s : Traced Id τ) (store : Storage Id) (note : Storage Id → τ) :
    Traced Id τ :=
  ⟨store, if store.refAt repo.activeNamespace refName =
      s.store.refAt repo.activeNamespace refName then s.trace
    else s.trace ++ [note s.store]⟩

/-- A write to a ref; when the ref moves it is recorded, with the state it
found. -/
def landing (f : Moment → Storage Id → Outcome Id Id) (note : Storage Id → τ) :
    RepoProgram Id τ (Except (RepoError Id) Id) :=
  .call fun m s =>
    ((f m s.store).1, landed repo refName s (f m s.store).2 note)

/-- What a read returns it returns as long as the ref stays. -/
def StableRead (f : Storage Id → Except ε α) : Prop :=
  ∀ s t a, repo.SameHead refName s t → f s = .ok a → f t = .ok a

/-- A program of reads. -/
inductive Reader : RepoProgram Id τ (Except ε α) → Prop where
  | pure (r : Except ε α) : Reader (pure r)
  | ask {β : Type} {f : Storage Id → Except ε β}
      {g : β → RepoProgram Id τ (Except ε α)} (hf : StableRead repo refName f)
      (hg : ∀ b, Reader (g b)) : Reader ((query f).attempt g)

variable {repo refName}

variable {note : Storage Id → τ} {s : Traced Id τ}

theorem safe_landing {C : Contract (Traced Id τ)}
    {post : β → Traced Id τ → Prop} {f : Moment → Storage Id → Outcome Id Id}
    {k : Except (RepoError Id) Id → RepoProgram Id τ β}
    (h : ∀ m t, C.guarantee s t → C.invariant t → ∀ out, f m t.store = out →
      C.invariant (landed repo refName t out.2 note) ∧
        C.guarantee t (landed repo refName t out.2 note) ∧
        Safe C post (k out.1) (landed repo refName t out.2 note)) :
    Safe C post (landing repo refName f note >>= k) s :=
  safe_call fun m t hst ht => h m t hst ht _ rfl

theorem landed_of_refAt_eq {store : Storage Id}
    (h : store.refAt repo.activeNamespace refName =
      s.store.refAt repo.activeNamespace refName) :
    landed repo refName s store note = ⟨store, s.trace⟩ := by
  simp only [landed, if_pos h]

theorem landed_of_refAt_ne {store : Storage Id}
    (h : store.refAt repo.activeNamespace refName ≠
      s.store.refAt repo.activeNamespace refName) :
    landed repo refName s store note = ⟨store, s.trace ++ [note s.store]⟩ := by
  simp only [landed, if_neg h]

theorem alone_query_attempt (m : Moment) (f : Storage Id → Except ε β)
    (g : β → RepoProgram Id τ (Except ε α)) (s : Traced Id τ) :
    (((query f).attempt g).alone m s).1 =
      match f s.store with
      | .ok b => ((g b).alone m s).1
      | .error e => .error e := by
  simp only [attempt, query, alone_bind, alone_read]
  split <;> simp_all

/-- What reads returned they return together when the ref is back where it
was before the first of them. -/
theorem Reader.safe {C : Contract (Traced Id τ)}
    {p : RepoProgram Id τ (Except ε α)} (h : Reader repo refName p)
    (hadvances : ∀ {s t}, C.guarantee s t →
      Storage.Advances repo.activeNamespace refName s.store t.store)
    {s₀ : Traced Id τ} {head : Id}
    (hhead : s₀.store.refAt repo.activeNamespace refName = some head)
    (hs : C.guarantee s₀ s) :
    Safe C (fun r t => ∀ a, r = .ok a → ∀ m u, C.guarantee t u →
      u.store.refAt repo.activeNamespace refName = some head →
      (p.alone m u).1 = .ok a) p s := by
  induction h generalizing s with
  | pure r =>
      refine safe_pure fun t _ _ a hr m u _ _ => ?_
      exact hr
  | @ask β f g hf hg ih =>
      refine safe_read fun m₁ s₁ hs₁ hinv₁ => ?_
      cases hread : f s₁.store with
      | error e =>
          refine safe_pure fun t _ _ a hr => ?_
          contradiction
      | ok b =>
          -- the reads after this one, and this one again at the end
          have hstart := C.trans hs hs₁
          refine (ih b hstart).imp ?_
          intro r t hst _ hpost a hr m u hu hback
          have hsu := C.trans hst hu
          have hmid := (hadvances hstart).no_return (hadvances hsu) hhead hback
          have hsame : repo.SameHead refName s₁.store u.store :=
            ⟨(hadvances hsu).expands, hback.trans hmid.symm, head, hmid⟩
          rw [alone_query_attempt, hf _ _ _ hsame hread]
          exact hpost a hr m u hu hback

end RepoProgram

end AgentStateGraph
