import AgentStateGraph.Core.MergeOverride
import AgentStateGraph.Repo.Speculation

/-!
# States that agree at a path

Two roots agree at a path when they have the same subtree there.  Each write
of the repository, whether it returns or fails, keeps what every branch has at
a path, provided what it writes or merges is apart from the path.
-/

namespace AgentStateGraph

variable {Id : Type} [Digest Id]

/-- Two roots have the same subtree at a path, in this store and in every
larger one. -/
def AgreeAt (objects : ObjectStore Id) (a b : Id) (q : List PathComponent) :
    Prop :=
  ∀ view, objects ≤ view → idAt view a q = idAt view b q

namespace AgreeAt

theorem refl (objects : ObjectStore Id) (a : Id) (q : List PathComponent) :
    AgreeAt objects a a q :=
  fun _ _ => rfl

variable {objects : ObjectStore Id} {a b : Id} {q : List PathComponent}

theorem symm (h : AgreeAt objects a b q) : AgreeAt objects b a q :=
  fun view hle => (h view hle).symm

theorem trans {c : Id} (hab : AgreeAt objects a b q)
    (hbc : AgreeAt objects b c q) : AgreeAt objects a c q :=
  fun view hle => (hab view hle).trans (hbc view hle)

theorem mono {bigger : ObjectStore Id} (hle : objects ≤ bigger)
    (h : AgreeAt objects a b q) : AgreeAt bigger a b q :=
  fun view hview => h view (hle.trans hview)

theorem of_idAt_eq_some {x : Id} (ha : idAt objects a q = some x)
    (hb : idAt objects b q = some x) : AgreeAt objects a b q := by
  intro view hle
  rw [idAt_eq_lookupAt] at ha hb
  rw [idAt_eq_lookupAt, idAt_eq_lookupAt, lookupAt_of_le hle ha,
    lookupAt_of_le hle hb]

theorem below (h : AgreeAt objects a b q) (rest : List PathComponent) :
    AgreeAt objects a b (q ++ rest) := by
  intro view hle
  have hq := h view hle
  simp only [idAt_eq_lookupAt] at hq ⊢
  rw [lookupAt_append, lookupAt_append, hq]

end AgreeAt

/-- From one state to another, every branch kept what it had at the path, and
every taint stands. -/
structure KeepsAt (q : List PathComponent) (s t : Storage Id) : Prop where
  objects : s.objects ≤ t.objects
  commits : s.commits ≤ t.commits
  taints : s.TaintsKept t
  branch : ∀ ns name head root, s.refAt ns name = some head →
    s.rootOf head = some root → ∃ head' root',
      t.refAt ns name = some head' ∧ t.rootOf head' = some root' ∧
        AgreeAt t.objects root root' q

namespace KeepsAt

variable {q : List PathComponent} {s t u : Storage Id}

theorem of_grows (h : s.Grows t) : KeepsAt q s t where
  objects := h.objects
  commits := h.commits
  taints := h.taints
  branch := by
    intro ns name head root href hroot
    refine ⟨head, root, ?_, Storage.rootOf_of_le h.commits hroot,
      AgreeAt.refl _ _ _⟩
    simpa only [Storage.refAt, h.refs] using href

theorem trans (hst : KeepsAt q s t) (htu : KeepsAt q t u) : KeepsAt q s u where
  objects := hst.objects.trans htu.objects
  commits := hst.commits.trans htu.commits
  taints := hst.taints.trans htu.taints
  branch := by
    intro ns name head root href hroot
    obtain ⟨head₁, root₁, href₁, hroot₁, hagree₁⟩ :=
      hst.branch ns name head root href hroot
    obtain ⟨head₂, root₂, href₂, hroot₂, hagree₂⟩ :=
      htu.branch ns name head₁ root₁ href₁ hroot₁
    exact ⟨head₂, root₂, href₂, hroot₂,
      (hagree₁.mono htu.objects).trans hagree₂⟩

theorem below (h : KeepsAt q s t) (rest : List PathComponent) :
    KeepsAt (q ++ rest) s t where
  objects := h.objects
  commits := h.commits
  taints := h.taints
  branch := by
    intro ns name head root href hroot
    obtain ⟨head', root', href', hroot', hagree⟩ :=
      h.branch ns name head root href hroot
    exact ⟨head', root', href', hroot', hagree.below rest⟩

theorem of_move {ns name : String} {commit newRoot : Id}
    (hobjects : s.objects ≤ t.objects) (hcommits : s.commits ≤ t.commits)
    (htaints : t.taints = s.taints)
    (hrefs : ∀ ns' name', t.refAt ns' name' =
      if ns = ns' ∧ name = name' then some commit else s.refAt ns' name')
    (hroot : t.rootOf commit = some newRoot)
    (hagree : ∀ head root, s.refAt ns name = some head →
      s.rootOf head = some root → AgreeAt t.objects root newRoot q) :
    KeepsAt q s t where
  objects := hobjects
  commits := hcommits
  taints := .of_eq htaints
  branch := by
    intro ns' name' head root href hold
    rw [hrefs]
    by_cases hsame : ns = ns' ∧ name = name'
    · obtain ⟨rfl, rfl⟩ := hsame
      exact ⟨commit, newRoot, by simp, hroot, hagree head root href hold⟩
    · exact ⟨head, root, by rw [if_neg hsame]; exact href,
        Storage.rootOf_of_le hcommits hold, AgreeAt.refl _ _ _⟩

theorem of_lands {ns name : String} {c : Commit Id}
    (h : s.Lands ns name c t)
    (hagree : ∀ head root, s.refAt ns name = some head →
      s.rootOf head = some root → AgreeAt s.objects root c.stateRoot q) :
    KeepsAt q s t := by
  have hroot := Storage.rootOf_of_getCommit h.getCommit
  refine of_move h.objects.ge h.commits_le h.taints h.refAt hroot ?_
  intro head root href hold
  rw [h.objects]
  exact hagree head root href hold

end KeepsAt

/-! ## The writes -/

namespace Repository

variable (repo : Repository) {q : List PathComponent}

variable {store built : Storage Id} {refName path source target : String}
  {options : CommitOptions} {now : ℕ → ℤ} {value : Json} {expectedHead : Id}

theorem writeLoop_keepsAt {build : BuildRoot Id} (hbuild : build.OnlyAdds)
    (hagree : ∀ head isBranch root newRoot built,
      repo.headForWrite store refName = .ok (head, isBranch) →
      store.rootOf head = some root →
      build store root = (.ok newRoot, built) →
      AgreeAt built.objects root newRoot q) :
    KeepsAt q store (repo.writeLoop refName build options now store).2 := by
  cases hloop : repo.writeLoop refName build options now store with
  | mk result store' =>
      cases result with
      | error e => exact .of_grows (repo.writeLoop_eq_error hbuild hloop)
      | ok id =>
          obtain ⟨head, isBranch, root, newRoot, built, hhead, hroot, hb, -,
            hlands⟩ := repo.writeLoop_eq_ok hbuild hloop
          have hadds : store.AddsObjects built := by
            have hadds := hbuild store root
            rwa [hb] at hadds
          refine KeepsAt.trans (.of_grows hadds.grows) (.of_lands hlands ?_)
          intro head' root' href' hroot'
          have hsame : head' = head := by
            rw [Storage.refAt, hadds.refs] at href'
            rcases repo.headForWrite_eq_ok hhead with ⟨-, href⟩ | ⟨-, hnone, -⟩
            · exact Option.some.inj (href'.symm.trans href)
            · rw [Storage.refAt, href'] at hnone
              simp at hnone
          subst hsame
          have hsameRoot : root' = root := by
            simp only [Storage.rootOf, Storage.getCommit, hadds.commits]
              at hroot'
            exact Option.some.inj (hroot'.symm.trans hroot)
          subst hsameRoot
          exact hagree head' isBranch root' newRoot built hhead hroot hb

theorem setRoot_agreeAt {p : StatePath} {value : Object Id} {root newRoot : Id}
    (hdisjoint : PathsDisjoint p.components q)
    (h : setRoot p value store root = (.ok newRoot, built)) :
    AgreeAt built.objects root newRoot q := by
  intro view hle
  exact (treeSet_idAt (setRoot_eq_ok h) hle hdisjoint).symm

theorem deleteRoot_agreeAt {p : StatePath} {root newRoot : Id}
    (hdisjoint : PathsDisjoint p.components q)
    (hshift : ¬ShiftsPath p.components q)
    (h : deleteRoot p store root = (.ok newRoot, built)) :
    AgreeAt built.objects root newRoot q := by
  intro view hle
  exact (treeDelete_idAt (deleteRoot_eq_ok h) hle hdisjoint hshift).symm

theorem raiseTaint_keepsAt (store : Storage Id) (refName : String)
    (e : Escalation) (now : ℕ → ℤ) :
    KeepsAt q store (repo.raiseTaint store refName e now).2 := by
  unfold raiseTaint
  split
  next => exact .of_grows (Storage.Grows.refl store)
  next recorded hraise =>
    have hgrows : KeepsAt q store recorded :=
      .of_grows (Storage.createTaint_grows hraise)
    have hintent : KeepsAt q recorded
        (repo.writeTaintIntent recorded refName e.options now).2 := by
      refine repo.writeLoop_keepsAt sameRoot_onlyAdds ?_
      intro head isBranch root newRoot built _ _ hb
      simp only [sameRoot, Prod.mk.injEq, Except.ok.injEq] at hb
      rw [hb.1]
      exact AgreeAt.refl _ _ _
    split
    next err store' hwrite =>
      rw [hwrite] at hintent
      exact hgrows.trans hintent
    next id store' hwrite =>
      rw [hwrite] at hintent
      exact (hgrows.trans hintent).trans
        (.of_grows (Storage.setTaintCommitId_grows store' _ _))

theorem autoEscalateWatches_keepsAt (refName : String) (now : ℕ → ℤ)
    (fired : List Escalation) (store : Storage Id) :
    KeepsAt q store (repo.autoEscalateWatches refName now fired store).2 := by
  induction fired generalizing store with
  | nil => exact .of_grows (Storage.Grows.refl store)
  | cons e fired ih =>
      have hraise := repo.raiseTaint_keepsAt (q := q) store refName e now
      unfold autoEscalateWatches
      split
      next err store' h =>
        rw [h] at hraise
        exact hraise
      next store' h =>
        rw [h] at hraise
        exact hraise.trans (ih store')

theorem escalateAfter_keepsAt (refName : String) (options : CommitOptions)
    (fired : List Escalation) (now : ℕ → ℤ) (id : Id) (store : Storage Id) :
    KeepsAt q store
      (repo.escalateAfter refName options fired now id store).2 := by
  have hwatches := repo.autoEscalateWatches_keepsAt (q := q) refName now fired
    store
  unfold escalateAfter
  split
  next => exact .of_grows (Storage.Grows.refl store)
  next =>
    split
    next err store' h =>
      rw [h] at hwatches
      exact hwatches
    next store' h =>
      rw [h] at hwatches
      exact hwatches

theorem set_keepsAt (refName : String) (value : Object Id)
    (hdisjoint : checkWrite store path options (now 0) = .ok () →
      ∀ p, StatePath.parse path = .ok p → PathsDisjoint p.components q) :
    KeepsAt q store (repo.set store refName path value options now).2 := by
  unfold set
  split
  next => exact .of_grows (Storage.Grows.refl store)
  next hcheck =>
    split
    next => exact .of_grows (Storage.Grows.refl store)
    next p hp =>
      refine repo.writeLoop_keepsAt (setRoot_onlyAdds p value) ?_
      intro head isBranch root newRoot built _ _ hb
      exact setRoot_agreeAt (hdisjoint hcheck p (parsePath_eq_ok hp)) hb

theorem delete_keepsAt
    (hdisjoint : checkWrite store path options (now 0) = .ok () →
      ∀ p, StatePath.parse path = .ok p →
        PathsDisjoint p.components q ∧ ¬ShiftsPath p.components q) :
    KeepsAt q store (repo.delete store refName path options now).2 := by
  unfold delete
  split
  next => exact .of_grows (Storage.Grows.refl store)
  next hcheck =>
    split
    next => exact .of_grows (Storage.Grows.refl store)
    next p hp =>
      refine repo.writeLoop_keepsAt (deleteRoot_onlyAdds p) ?_
      intro head isBranch root newRoot built _ _ hb
      obtain ⟨hd, hs⟩ := hdisjoint hcheck p (parsePath_eq_ok hp)
      exact deleteRoot_agreeAt hd hs hb

theorem setJson_keepsAt {fired : List Escalation}
    (hdisjoint : ∀ s : Storage Id, s.taints = store.taints →
      checkWrite s path options (now 0) = .ok () →
      ∀ p, StatePath.parse path = .ok p → PathsDisjoint p.components q) :
    KeepsAt q store
      (repo.setJson store refName path value options fired now).2 := by
  have hjson : KeepsAt q store
      (store.withObjects (jsonToTree store.objects value).2) :=
    .of_grows (Storage.addsObjects_withObjects
      (le_jsonToTree store.objects value)).grows
  unfold setJson
  simp only
  split
  next => exact hjson
  next o ho =>
    have hset := repo.set_keepsAt refName o
      (hdisjoint (store.withObjects (jsonToTree store.objects value).2) rfl)
    split
    next e store' h =>
      rw [h] at hset
      exact hjson.trans hset
    next id store' h =>
      rw [h] at hset
      exact (hjson.trans hset).trans
        (repo.escalateAfter_keepsAt refName options fired now id store')

/-- The compare-and-swap of `set_json_cas`. -/
theorem setJsonCas_move_keepsAt {moved : Storage Id} {now : ℤ} {c : Commit Id}
    (hbuild : repo.buildOnExpected store refName expectedHead path value options
      now = (.ok c, built))
    (hmove : repo.advanceRef built refName expectedHead c.id =
      .ok (true, moved)) (hdisjoint : ∀ p, StatePath.parse path = .ok p →
      PathsDisjoint p.components q) : KeepsAt q built moved := by
  obtain ⟨root, p, based, hroot, hp, hset, hadds, -, hcommit⟩ :=
    repo.buildOnExpected_eq_ok hbuild
  obtain ⟨-, href, rfl⟩ | ⟨hfalse, -, -⟩ := repo.advanceRef_eq_ok hmove
  · have hnew := Storage.rootOf_of_getCommit hcommit.getCommit
    refine KeepsAt.of_move (le_refl _) (le_refl _) rfl
      (fun ns name => Storage.refAt_putRef _ _ _ _ _ _) hnew ?_
    intro head oldRoot hhead hold
    have hsame : head = expectedHead :=
      Option.some.inj (hhead.symm.trans href)
    subst hsame
    have hcommits := (hadds.grows.trans hcommit.grows).commits
    have hsameRoot : oldRoot = root :=
      Option.some.inj
        (hold.symm.trans (Storage.rootOf_of_le hcommits hroot))
    subst hsameRoot
    intro view hle
    refine (treeSet_idAt hset ?_ (hdisjoint p hp)).symm
    exact hcommit.objects.ge.trans hle
  · simp at hfalse

theorem setJsonCas_keepsAt {fired : List Escalation}
    (hdisjoint : checkWrite store path options (now 0) = .ok () →
      ∀ p, StatePath.parse path = .ok p → PathsDisjoint p.components q) :
    KeepsAt q store (repo.setJsonCas store refName expectedHead path value
      options fired now).2 := by
  unfold setJsonCas
  split
  next => exact .of_grows (Storage.Grows.refl store)
  next hcheck =>
    have hgrows := repo.buildOnExpected_grows store refName expectedHead path
      value options (now 0)
    split
    next e built h =>
      rw [h] at hgrows
      exact .of_grows hgrows
    next c built h =>
      rw [h] at hgrows
      have hbuilt : KeepsAt q store built := .of_grows hgrows
      split
      next => exact hbuilt
      next kept hmove =>
        rcases repo.advanceRef_eq_ok hmove with ⟨hfalse, -, -⟩ | ⟨-, -, rfl⟩
        · simp at hfalse
        · exact hbuilt
      next moved hmove =>
        have hmoved := repo.setJsonCas_move_keepsAt h hmove
          (hdisjoint hcheck)
        exact (hbuilt.trans hmoved).trans
          (repo.escalateAfter_keepsAt refName options fired now c.id moved)

/-- At the path, the source of a merge has what the merge base has, or what
the target has. -/
def MergeSpares (store : Storage Id) (source target : String)
    (q : List PathComponent) : Prop :=
  ∀ sourceId targetId baseId sourceRoot targetRoot baseRoot,
    repo.resolveRef store source = .ok sourceId →
    repo.resolveRef store target = .ok targetId →
    findCommonAncestor store.commits sourceId targetId = some baseId →
    store.rootOf sourceId = some sourceRoot →
    store.rootOf targetId = some targetRoot →
    store.rootOf baseId = some baseRoot →
    AgreeAt store.objects sourceRoot baseRoot q ∨
      AgreeAt store.objects sourceRoot targetRoot q

theorem computeMerge_agreeAt {comp : MergeComputation Id}
    (hspares : repo.MergeSpares store source target q)
    (h : repo.computeMerge store source target = .ok comp)
    (hclean : comp.result.isClean = true) {objects : ObjectStore Id}
    (hle : store.objects ≤ objects)
    (hcreated : ∀ o ∈ comp.created, objects.get o.id = some o) :
    AgreeAt objects comp.targetStateRoot comp.result.rootId q := by
  obtain ⟨baseId, baseRoot, hs, ht, hsr, htr, hbase, hbr, hmerge⟩ :=
    repo.computeMerge_eq_ok h
  intro view hview
  have hsettles := tryThreeWayMergeCollect_settles hmerge hclean
    (hle.trans hview) (fun o ho => hview _ _ (hcreated o ho)) q
  rcases hspares _ _ _ _ _ _ hs ht hbase hsr htr hbr with hagree | hagree
  · exact (hsettles.takesOurs (hagree view (hle.trans hview))).symm
  · exact (hsettles.takesBoth (hagree view (hle.trans hview)).symm).symm

theorem rootOf_fastForward {comp : MergeComputation Id} {ffId : Id}
    (h : repo.computeMerge store source target = .ok comp)
    (hff : comp.result = .fastForward ffId) :
    store.rootOf (if ffId = comp.sourceStateRoot then comp.sourceCommitId
      else comp.targetCommitId) = some ffId := by
  obtain ⟨baseId, baseRoot, -, -, hsr, htr, -, -, hmerge⟩ :=
    repo.computeMerge_eq_ok h
  by_cases hsame : ffId = comp.sourceStateRoot
  · rw [if_pos hsame, hsr, hsame]
  · rw [if_neg hsame, htr]
    rw [hff] at hmerge
    rcases tryThreeWayMergeCollect_eq_ok hmerge with
      ⟨-, hr⟩ | ⟨-, -, hr⟩ | ⟨-, -, -, hr⟩ |
        ⟨-, -, -, bo, oo, th, -, -, -, -, -, hr⟩
    · exact absurd (MergeResult.fastForward.inj hr) hsame
    · rw [MergeResult.fastForward.inj hr]
    · rw [MergeResult.fastForward.inj hr]
    · split at hr <;> contradiction

theorem mergeChecked_keepsAt {allowDeletions : Bool}
    (hspares : repo.MergeSpares store source target q) :
    KeepsAt q store (repo.mergeChecked store source target options
      allowDeletions now).2 := by
  cases hmerge : repo.mergeChecked store source target options allowDeletions
      now with
  | mk result store' =>
      cases result with
      | error e => exact .of_grows (repo.mergeChecked_eq_error hmerge)
      | ok id =>
          obtain ⟨head, comp, hhead, hcomp, hmove⟩ :=
            repo.mergeChecked_eq_ok hmerge
          have hns := repo.headForWrite_namespace hhead
          obtain ⟨-, -, -, ht, -, htr, -, -, -⟩ := repo.computeMerge_eq_ok hcomp
          -- the target's branch, where there is one, is at the merged head
          have htarget : ∀ head root,
              store.refAt repo.activeNamespace target = some head →
              store.rootOf head = some root → root = comp.targetStateRoot := by
            intro head root href hroot
            have hres := repo.resolveRef_of_refAt hns href
            rw [ht, Except.ok.injEq] at hres
            rw [← hres, htr] at hroot
            exact (Option.some.inj hroot).symm
          cases hmove with
          | merged stored c m hresult hadds hcreated hparents hroot hid hlands =>
              refine KeepsAt.trans (.of_grows hadds.grows)
                (.of_lands hlands ?_)
              intro head' root href hold
              simp only [Storage.refAt, hadds.refs] at href
              simp only [Storage.rootOf, Storage.getCommit, hadds.commits]
                at hold
              rw [htarget head' root href hold, hroot]
              have hagree := repo.computeMerge_agreeAt hspares hcomp
                (by rw [hresult]; rfl) hadds.le hcreated
              rw [hresult] at hagree
              exact hagree
          | fastForward ffId hresult hid hmove =>
              subst hmove
              have hff := repo.rootOf_fastForward hcomp hresult
              rw [← hid] at hff
              refine KeepsAt.of_move (le_refl _) (le_refl _) rfl
                (fun ns name => Storage.refAt_putRef _ _ _ _ _ _) hff ?_
              intro head' root href hold
              rw [htarget head' root href hold]
              obtain ⟨_, _, -, -, -, -, -, -, hcollect⟩ :=
                repo.computeMerge_eq_ok hcomp
              rw [hresult] at hcollect
              have hnil := created_of_fastForward hcollect
              have hagree := repo.computeMerge_agreeAt hspares hcomp
                (by rw [hresult]; rfl) (le_refl _) (by simp [hnil])
              rw [hresult] at hagree
              exact hagree

/-- At the path, a speculation has what it forked from, or what the head has;
and it lands as it is, or merges without conflicts. -/
def SpeculationSpares (store : Storage Id) (spec : Speculation Id)
    (q : List PathComponent) : Prop :=
  ∀ head isBranch root,
    repo.headForWrite store spec.baseRef = .ok (head, isBranch) →
    store.rootOf head = some root →
    (AgreeAt store.objects spec.currentRoot spec.baseRoot q ∨
        AgreeAt store.objects spec.currentRoot root q) ∧
      (root = spec.baseRoot ∨ ∀ result created,
        tryThreeWayMergeCollect store.objects spec.baseRoot spec.currentRoot
          root = .ok (result, created) → result.isClean = true)

theorem commitSpeculation_keepsAt {spec : Speculation Id}
    (hspares : repo.SpeculationSpares store spec q) :
    KeepsAt q store (repo.commitSpeculation store spec options now).2 := by
  unfold commitSpeculation
  split
  next => exact .of_grows (Storage.Grows.refl store)
  next =>
    refine repo.writeLoop_keepsAt (speculationRoot_onlyAdds spec) ?_
    intro head isBranch root newRoot built hhead hroot hb
    obtain ⟨hagree, hclean⟩ := hspares head isBranch root hhead hroot
    -- a merge in which the head's side is kept at the path
    have hmerged : ∀ {result : MergeResult Id} {created : List (Object Id)}
        {objects : ObjectStore Id},
        tryThreeWayMergeCollect store.objects spec.baseRoot spec.currentRoot
          root = .ok (result, created) → result.isClean = true →
        store.objects ≤ objects →
        (∀ o ∈ created, objects.get o.id = some o) →
        AgreeAt objects root result.rootId q := by
      intro result created objects hmerge hc hle hcreated view hview
      have hsettles := tryThreeWayMergeCollect_settles hmerge hc
        (hle.trans hview) (fun o ho => hview _ _ (hcreated o ho)) q
      rcases hagree with hagree | hagree
      · exact (hsettles.takesTheirs (hagree view (hle.trans hview))).symm
      · have hboth := hagree view (hle.trans hview)
        exact (hboth.symm.trans (hsettles.takesBoth hboth).symm)
    unfold speculationRoot at hb
    split at hb
    next hbase =>
      obtain ⟨rfl, rfl⟩ := landAsIs_eq_ok hb
      rw [hbase] at hagree ⊢
      exact (or_self_iff.mp hagree).symm
    next hbase =>
      have hclean := hclean.resolve_left hbase
      split at hb
      next => simp at hb
      next id created hmerge =>
        simp only [Prod.mk.injEq, Except.ok.injEq] at hb
        obtain ⟨rfl, rfl⟩ := hb
        have hm := mergeTrees_eq_ok_iff.mp hmerge
        exact hmerged hm rfl (le_refl _) (by simp [created_of_fastForward hm])
      next merged created hmerge =>
        obtain ⟨rfl, rfl⟩ := storeMerged_eq_ok hb
        have hm := mergeTrees_eq_ok_iff.mp hmerge
        refine hmerged hm rfl (ObjectStore.le_putAll store.objects _) ?_
        intro o ho
        exact AddressedMap.get_putAll_of_mem Object.id_injective store.objects
          (List.mem_append_left _ ho)
      next merged cs created hmerge =>
        have hc := hclean _ _ (mergeTrees_eq_ok_iff.mp hmerge)
        simp [MergeResult.isClean] at hc

theorem commitSpeculationCas_keepsAt {spec : Speculation Id} {now : ℤ}
    (hspares : AgreeAt store.objects spec.currentRoot spec.baseRoot q) :
    KeepsAt q store
      (repo.commitSpeculationCas store spec expectedHead options now).2 := by
  have hgrows := repo.buildSpeculation_grows store spec expectedHead options now
  unfold commitSpeculationCas
  split
  next e built h =>
    rw [h] at hgrows
    exact .of_grows hgrows
  next c built h =>
    rw [h] at hgrows
    have hbuilt : KeepsAt q store built := .of_grows hgrows
    split
    next => exact hbuilt
    next kept hmove =>
      rcases repo.advanceRef_eq_ok hmove with ⟨hfalse, -, -⟩ | ⟨-, -, rfl⟩
      · simp at hfalse
      · exact hbuilt
    next moved hmove =>
      obtain ⟨-, href, rfl⟩ | ⟨hfalse, -, -⟩ := repo.advanceRef_eq_ok hmove
      · obtain ⟨hroot, -, rfl, hcommit⟩ := repo.buildSpeculation_eq_ok h
        refine hbuilt.trans (KeepsAt.of_move (le_refl _) (le_refl _) rfl
          (fun ns name => Storage.refAt_putRef _ _ _ _ _ _)
          (Storage.rootOf_of_getCommit hcommit.getCommit) ?_)
        intro head root hhead hold
        have hsame : head = expectedHead :=
          Option.some.inj (hhead.symm.trans href)
        subst hsame
        have hbase : root = spec.baseRoot := Option.some.inj
          (hold.symm.trans (Storage.rootOf_of_le hgrows.commits hroot))
        subst hbase
        exact (hspares.mono hgrows.objects).symm
      · simp at hfalse

end Repository

end AgentStateGraph
