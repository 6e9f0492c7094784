import AgentStateGraph.Epoch.Members

/-!
# Members that landed

Writers and merges take turns on one store.  Every id that a write recorded as
a member is reachable from the write's ref once it returned, provided no
attempt whose commit was recorded loses its swap, breaks a seal or is refused
by its session, and no merge moves a branch off its own history.
-/

namespace AgentStateGraph

open RelyGuarantee

variable {Id : Type} [Digest Id]

/-! ## Contributors -/

inductive Contributor (Id : Type) where
  | writer (w : Writer Id)
  | merger (m : Merger)

inductive Stage (Id : Type) where
  | writing (pc : Pc Id)
  | merging (pc : MergePc Id)

/-- Where a contributor is, and the members it has recorded. -/
structure Progress (Id : Type) where
  stage : Stage Id
  members : List Id

namespace Stage

def returned : Stage Id → Bool
  | .writing (.done _) | .merging (.done _) => true
  | _ => false

/-- The commit that is about to land. -/
def pending? : Stage Id → Option Id
  | .writing (.landing _ _ _ _ commit) => some commit
  | .writing (.landingCas commit) => some commit
  | .merging (.landing _ _ _ commit) => some commit
  | _ => none

end Stage

namespace Contributor

def repo : Contributor Id → Repository
  | .writer w => w.repo
  | .merger m => m.repo

/-- The ref a contributor writes to. -/
def refName : Contributor Id → String
  | .writer w => w.refName
  | .merger m => m.target

def ns (c : Contributor Id) : String := c.repo.activeNamespace

def expectedHead? : Contributor Id → Option Id
  | .writer w => w.expectedHead?
  | .merger _ => none

def start : Contributor Id → Progress Id
  | .writer _ => ⟨.writing .start, []⟩
  | .merger _ => ⟨.merging (.reading 0), []⟩

/-- One step, with the members it records. -/
def step (c : Contributor Id) (now : ℤ) (store : Storage Id)
    (p : Progress Id) : Storage Id × Progress Id :=
  match c, p.stage with
  | .writer w, .writing pc =>
      let r := writerStep (fun _ : Unit => w) () now ⟨store, []⟩ pc
      (r.1.store, ⟨.writing r.2, p.members ++ w.marks now store pc⟩)
  | .merger m, .merging pc =>
      let r := m.step now store pc
      (r.1, ⟨.merging r.2, p.members ++ m.marks now store pc⟩)
  | _, _ => (store, p)

end Contributor

variable {W : Type}

/-- The contributors as agents on the store. -/
def contributorMachine (agents : W → Contributor Id) :
    Machine W ℤ (Storage Id) (Progress Id) :=
  ⟨fun i now store p => (agents i).step now store p⟩

def contributorsStart (agents : W → Contributor Id) (store : Storage Id) :
    Config W (Storage Id) (Progress Id) :=
  ⟨store, fun i => (agents i).start⟩

/-! ## Attempts that land -/

/-- A swap from `expected` to `commit` goes through. -/
structure Repository.SwapLands (repo : Repository) (store : Storage Id)
    (refName : String) (expected commit : Id) : Prop where
  notReserved : (refuseReservedRef refName : Except (RepoError Id) Unit) = .ok ()
  sealsKept : repo.enforceEpochSeals store refName commit = .ok ()
  namespace_mem : repo.activeNamespace ∈ store.namespaces
  unmoved : store.refAt repo.activeNamespace refName = some expected

/-- Where a write goes wrong is not reached: a commit that is recorded as a
member is taken by the session, and its swap goes through; and a merge leaves
its target on a commit that descends from the head. -/
def Contributor.Careful (c : Contributor Id) (store : Storage Id)
    (p : Progress Id) : Prop :=
  match p.stage with
  | .writing (.building _ _ _ _) | .writing .buildingCas
  | .merging (.computing _ _) =>
      c.repo.activeEpoch.isSome = true → c.repo.SessionOpen store
  | .writing (.landing _ _ head _ commit) =>
      commit ∈ p.members → c.repo.SwapLands store c.refName head commit
  | .writing (.landingCas commit) =>
      commit ∈ p.members → ∀ expected ∈ c.expectedHead?,
        c.repo.SwapLands store c.refName expected commit
  | .merging (.landing _ _ expected commit) =>
      (commit ∈ p.members → c.repo.SwapLands store c.refName expected commit) ∧
        (store.refAt c.ns c.refName = some expected →
          store.commits.IsAncestor expected commit)
  | _ => True

instance (repo : Repository) (store : Storage Id) (refName : String)
    (expected commit : Id) :
    Decidable (repo.SwapLands store refName expected commit) :=
  decidable_of_iff
    ((refuseReservedRef refName : Except (RepoError Id) Unit) = .ok () ∧
      repo.enforceEpochSeals store refName commit = .ok () ∧
      repo.activeNamespace ∈ store.namespaces ∧
      store.refAt repo.activeNamespace refName = some expected)
    ⟨fun ⟨h₁, h₂, h₃, h₄⟩ => ⟨h₁, h₂, h₃, h₄⟩,
      fun ⟨h₁, h₂, h₃, h₄⟩ => ⟨h₁, h₂, h₃, h₄⟩⟩

instance (c : Contributor Id) (store : Storage Id) :
    ∀ p, Decidable (c.Careful store p)
  | ⟨.writing .start, _⟩ | ⟨.writing (.reading _ _), _⟩
  | ⟨.writing (.raising _ _), _⟩ | ⟨.writing (.done _), _⟩
  | ⟨.merging (.reading _), _⟩ | ⟨.merging (.done _), _⟩ => isTrue trivial
  | ⟨.writing (.building _ _ _ _), _⟩ | ⟨.writing .buildingCas, _⟩
  | ⟨.merging (.computing _ _), _⟩ =>
      inferInstanceAs (Decidable (_ → c.repo.SessionOpen store))
  | ⟨.writing (.landing _ _ head _ commit), members⟩ =>
      inferInstanceAs (Decidable (commit ∈ members →
        c.repo.SwapLands store c.refName head commit))
  | ⟨.writing (.landingCas commit), members⟩ =>
      inferInstanceAs (Decidable (commit ∈ members →
        ∀ expected ∈ c.expectedHead?,
          c.repo.SwapLands store c.refName expected commit))
  | ⟨.merging (.landing _ _ expected commit), members⟩ =>
      inferInstanceAs (Decidable ((commit ∈ members →
        c.repo.SwapLands store c.refName expected commit) ∧
        (store.refAt c.ns c.refName = some expected →
          store.commits.IsAncestor expected commit)))

/-! ## What a step keeps -/

/-- A commit in the history of a stored ref. -/
def Storage.Anchored (store : Storage Id) (ns name : String) (id : Id) : Prop :=
  ∃ head, store.refAt ns name = some head ∧ store.commits.IsAncestor id head

instance (store : Storage Id) (ns name : String) (id : Id) :
    Decidable (store.Anchored ns name id) :=
  inferInstanceAs (Decidable (∃ head, head ∈ store.refAt ns name ∧
    store.commits.IsAncestor id head))

/-- No commit is dropped, and none leaves the history of a ref. -/
structure Storage.KeepsAnchored (s t : Storage Id) : Prop where
  commits : s.commits ≤ t.commits
  anchored : ∀ ns name id, s.Anchored ns name id → t.Anchored ns name id

namespace Storage

theorem KeepsAnchored.refl (s : Storage Id) : s.KeepsAnchored s :=
  ⟨le_refl _, fun _ _ _ h => h⟩

theorem KeepsAnchored.trans {s t u : Storage Id} (hst : s.KeepsAnchored t)
    (htu : t.KeepsAnchored u) : s.KeepsAnchored u :=
  ⟨hst.commits.trans htu.commits,
    fun ns name id h => htu.anchored ns name id (hst.anchored ns name id h)⟩

theorem Grows.keepsAnchored {s t : Storage Id} (h : s.Grows t) :
    s.KeepsAnchored t := by
  refine ⟨h.commits, ?_⟩
  rintro ns name id ⟨head, href, hanc⟩
  refine ⟨head, ?_, hanc.mono h.commits⟩
  simpa only [Storage.refAt, h.refs] using href

theorem keepsAnchored_putRef {s : Storage Id} {ns name : String}
    {head commit : Id} (href : s.refAt ns name = some head)
    (hanc : s.commits.IsAncestor head commit) :
    s.KeepsAnchored (s.putRef ns name commit) := by
  refine ⟨le_refl _, ?_⟩
  rintro ns' name' id ⟨old, hold, hid⟩
  by_cases hsame : ns = ns' ∧ name = name'
  · obtain ⟨rfl, rfl⟩ := hsame
    rw [href] at hold
    obtain rfl := Option.some.inj hold
    exact ⟨commit, refAt_putRef_self _ _ _ _, hid.trans hanc⟩
  · refine ⟨old, ?_, hid⟩
    rw [refAt_putRef, if_neg hsame]
    exact hold

theorem anchored_putRef (s : Storage Id) (ns name : String) (commit : Id) :
    (s.putRef ns name commit).Anchored ns name commit :=
  ⟨commit, refAt_putRef_self _ _ _ _, .refl _ _⟩

end Storage

theorem Repository.SwapLands.advanceRef {repo : Repository} {store : Storage Id}
    {refName : String} {expected commit : Id}
    (h : repo.SwapLands store refName expected commit) :
    repo.advanceRef store refName expected commit =
      .ok (true, store.putRef repo.activeNamespace refName commit) := by
  unfold Repository.advanceRef Storage.casRef
  rw [h.notReserved, h.sealsKept, if_pos h.namespace_mem, if_pos h.unmoved]
  rfl

/-- What is known of the branch and of the commit in the hands of a
contributor. -/
def Stage.Rooted (c : Contributor Id) (store : Storage Id) : Stage Id → Prop
  | .writing (.building _ _ _ isBranch) => isBranch = true
  | .writing (.landing _ _ head isBranch commit) =>
      isBranch = true ∧ store.commits.IsAncestor head commit
  | .writing (.landingCas commit) => ∃ expected,
      c.expectedHead? = some expected ∧
        store.commits.IsAncestor expected commit
  | .merging (.computing _ isBranch) => isBranch = true
  | .merging (.landing _ isBranch _ _) => isBranch = true
  | _ => True

/-- Everything recorded is in the history of the ref, but for the commit that
is about to land. -/
structure Progress.Holds (c : Contributor Id) (store : Storage Id)
    (p : Progress Id) : Prop where
  branch : ∃ head, store.refAt c.ns c.refName = some head
  rooted : p.stage.Rooted c store
  members : ∀ id ∈ p.members,
    store.Anchored c.ns c.refName id ∨ p.stage.pending? = some id

section

variable {c : Contributor Id} {s t : Storage Id}

theorem Stage.Rooted.stable (hkeeps : s.KeepsAnchored t) {stage : Stage Id}
    (h : stage.Rooted c s) : stage.Rooted c t := by
  cases stage with
  | writing pc =>
      cases pc with
      | landing task attempt head isBranch commit =>
          exact ⟨h.1, h.2.mono hkeeps.commits⟩
      | landingCas commit =>
          obtain ⟨expected, hexp, hanc⟩ := h
          exact ⟨expected, hexp, hanc.mono hkeeps.commits⟩
      | _ => exact h
  | merging pc =>
      cases pc with
      | _ => exact h

theorem branch_stable (hkeeps : s.KeepsAnchored t)
    (h : ∃ head, s.refAt c.ns c.refName = some head) :
    ∃ head, t.refAt c.ns c.refName = some head := by
  obtain ⟨head, href⟩ := h
  obtain ⟨new, hnew, -⟩ :=
    hkeeps.anchored c.ns c.refName head ⟨head, href, .refl _ _⟩
  exact ⟨new, hnew⟩

theorem Progress.Holds.stable (hkeeps : s.KeepsAnchored t) {p : Progress Id}
    (h : p.Holds c s) :
    p.Holds c t where
  branch := branch_stable hkeeps h.branch
  rooted := h.rooted.stable hkeeps
  members := fun id hid => (h.members id hid).imp_left (hkeeps.anchored _ _ _)

end

/-- What one step has to establish. -/
def StepAnchors (c : Contributor Id) (s : Storage Id)
    (r : Storage Id × Progress Id) : Prop :=
  r.2.Holds c r.1 ∧ s.KeepsAnchored r.1

section Step

variable {c : Contributor Id} {s t : Storage Id} {p : Progress Id}

/-- A step that goes on with nothing in hand, and had nothing in hand. -/
theorem stepAnchors_of_none (hp : p.Holds c s) (hkeeps : s.KeepsAnchored t)
    (hnone : p.stage.pending? = none) {stage : Stage Id}
    (hrooted : stage.Rooted c t) {marked : List Id}
    (hmarked : ∀ id ∈ marked, stage.pending? = some id) :
    StepAnchors c s (t, ⟨stage, p.members ++ marked⟩) := by
  refine ⟨⟨branch_stable hkeeps hp.branch, hrooted, ?_⟩, hkeeps⟩
  intro id hid
  rcases List.mem_append.mp hid with hold | hnew
  · rcases hp.members id hold with hanc | hpend
    · exact Or.inl (hkeeps.anchored _ _ _ hanc)
    · rw [hnone] at hpend
      contradiction
  · exact Or.inr (hmarked id hnew)

theorem stepAnchors_idle (hp : p.Holds c s) (hkeeps : s.KeepsAnchored t)
    (hnone : p.stage.pending? = none) {stage : Stage Id}
    (hrooted : stage.Rooted c t) :
    StepAnchors c s (t, ⟨stage, p.members ++ []⟩) :=
  stepAnchors_of_none hp hkeeps hnone hrooted
    fun _ hid => absurd hid List.not_mem_nil

theorem stepAnchors_of_landed (hp : p.Holds c s) (hkeeps : s.KeepsAnchored t)
    {commit : Id} (hpend : p.stage.pending? = some commit)
    (hlanded : commit ∈ p.members → t.Anchored c.ns c.refName commit)
    {stage : Stage Id} (hrooted : stage.Rooted c t) :
    StepAnchors c s (t, ⟨stage, p.members ++ []⟩) := by
  refine ⟨⟨branch_stable hkeeps hp.branch, hrooted, ?_⟩, hkeeps⟩
  intro id hid
  rw [List.append_nil] at hid
  rcases hp.members id hid with hanc | hid'
  · exact Or.inl (hkeeps.anchored _ _ _ hanc)
  · rw [hpend] at hid'
    obtain rfl := Option.some.inj hid'
    exact Or.inl (hlanded hid)

end Step

/-! ## Writers -/

theorem BuiltOn.isAncestor {w : Writer Id} {own : Bool} {store : Storage Id}
    {head commit : Id} (h : BuiltOn w own store head commit) :
    store.commits.IsAncestor head commit := by
  obtain ⟨c, root, hc, hparents, -, -⟩ := h
  apply CommitStore.IsAncestor.of_mem_parents
  simp [CommitStore.parents_of_get hc, hparents]

theorem Writer.begin_rooted (w : Writer Id) (now : ℤ) (store : Storage Id) :
    (Stage.writing (w.begin now store)).Rooted (.writer w) store := by
  unfold Writer.begin
  split <;> repeat' split
  all_goals trivial

theorem Writer.afterCas_rooted (w : Writer Id) (commit : Id)
    (store : Storage Id) :
    (Stage.writing (w.afterCas commit)).Rooted (.writer w) store := by
  unfold Writer.afterCas
  split
  · split <;> trivial
  · trivial

namespace Writer

variable {w : Writer Id} {s : Storage Id} {p : Progress Id}

variable {members : List Id} {task : Task Id} {attempt : ℕ}

theorem anchors_reading (now : ℤ)
    (hp : (⟨.writing (.reading task attempt), members⟩ : Progress Id).Holds
      (.writer w) s) :
    StepAnchors (.writer w) s ((Contributor.writer w).step now s
      ⟨.writing (.reading task attempt), members⟩) := by
  have hsame : ∀ pc : Pc Id, (Stage.writing pc).Rooted (.writer w) s →
      StepAnchors (.writer w) s (s, ⟨.writing pc, members ++ []⟩) :=
    fun pc hrooted => stepAnchors_idle hp (.refl s) rfl hrooted
  simp only [Contributor.step, writerStep, Writer.marks]
  split
  next =>
    split
    next => exact hsame _ trivial
    next head isBranch hhead =>
      apply hsame
      obtain ⟨old, href⟩ := hp.branch
      rcases w.repo.headForWrite_eq_ok hhead with
        ⟨hbranch, -⟩ | ⟨-, hnone, -⟩
      · exact hbranch
      · simp only [Contributor.ns, Contributor.repo, Contributor.refName] at href
        rw [hnone] at href
        contradiction
  next => exact hsame _ trivial

theorem anchors_building {head : Id} {isBranch : Bool} (now : ℤ)
    (hp : (⟨.writing (.building task attempt head isBranch), members⟩ :
      Progress Id).Holds (.writer w) s)
    (hcareful : (Contributor.writer w).Careful s
      ⟨.writing (.building task attempt head isBranch), members⟩) :
    StepAnchors (.writer w) s ((Contributor.writer w).step now s
      ⟨.writing (.building task attempt head isBranch), members⟩) := by
  obtain ⟨hgrows, hpc⟩ := w.buildStep_spec task attempt head isBranch now s
  simp only [Contributor.step, writerStep, Writer.marks, Shared.withStore]
  refine stepAnchors_of_none hp hgrows.keepsAnchored rfl ?_ ?_
  · rcases hpc with ⟨e, herr⟩ | ⟨commit, hland, hbuilt⟩
    · rw [herr]
      trivial
    · rw [hland]
      exact ⟨hp.rooted, hbuilt.isAncestor⟩
  · intro id hid
    obtain ⟨c, hc, rfl⟩ := (w.buildOn_buildsOne task head now s).ok_of_mem_marksOf
      (hcareful (w.repo.isSome_of_mem_marksOf hid)) hid
    rw [w.buildStep_eq, Outcome.eq_of_fst hc]
    rfl

theorem anchors_landing {head commit : Id} {isBranch : Bool} (now : ℤ)
    (hp : (⟨.writing (.landing task attempt head isBranch commit), members⟩ :
      Progress Id).Holds (.writer w) s)
    (hcareful : (Contributor.writer w).Careful s
      ⟨.writing (.landing task attempt head isBranch commit), members⟩) :
    StepAnchors (.writer w) s ((Contributor.writer w).step now s
      ⟨.writing (.landing task attempt head isBranch commit), members⟩) := by
  obtain ⟨rfl, hanc⟩ := hp.rooted
  have hlands : commit ∈ members →
      w.repo.advanceRef s w.refName head commit =
        .ok (true, s.putRef w.repo.activeNamespace w.refName commit) :=
    fun hmem => (hcareful hmem).advanceRef
  simp only [Contributor.step, writerStep, Writer.marks]
  split
  next e hmove =>
    refine stepAnchors_of_landed hp (.refl s) rfl ?_ trivial
    intro hmem
    rw [Repository.moveRef, if_pos rfl, hlands hmem] at hmove
    contradiction
  next t hmove =>
    rw [Repository.moveRef, if_pos rfl] at hmove
    rcases w.repo.advanceRef_eq_ok hmove with ⟨hfalse, -, -⟩ | ⟨-, -, rfl⟩
    · simp at hfalse
    · refine stepAnchors_of_landed hp (.refl _) rfl ?_ trivial
      intro hmem
      rw [hlands hmem] at hmove
      simp at hmove
  next t hmove =>
    obtain ⟨rfl, href⟩ := w.repo.moveRef_eq_ok_true hmove
    have hgrows := task.afterLanding_grows
      (s.putRef w.repo.activeNamespace w.refName commit) commit
    have hkeeps := Storage.keepsAnchored_putRef (href rfl) hanc
    refine stepAnchors_of_landed hp (hkeeps.trans hgrows.keepsAnchored) rfl
      ?_ ?_
    · intro _
      exact hgrows.keepsAnchored.anchored _ _ _ (s.anchored_putRef _ _ commit)
    · cases task with
      | own => trivial
      | intent returned e rest => trivial

theorem anchors_buildingCas (now : ℤ)
    (hp : (⟨.writing .buildingCas, members⟩ : Progress Id).Holds (.writer w) s)
    (hcareful : (Contributor.writer w).Careful s
      ⟨.writing .buildingCas, members⟩) :
    StepAnchors (.writer w) s ((Contributor.writer w).step now s
      ⟨.writing .buildingCas, members⟩) := by
  obtain ⟨hgrows, hbuilt⟩ := w.buildCas_spec now s
  have hmarked : ∀ id ∈ w.marks now s .buildingCas,
      ∃ c, (w.buildCas now s).1 = .ok c ∧ c.id = id := by
    intro id hid
    exact (w.buildCas_buildsOne now s).ok_of_mem_marksOf
      (hcareful (w.repo.isSome_of_mem_marksOf hid)) hid
  simp only [Contributor.step, writerStep]
  split
  next e t hbuild =>
    rw [hbuild] at hgrows hmarked
    refine stepAnchors_of_none hp hgrows.keepsAnchored rfl ?_ ?_
    · trivial
    · intro id hid
      obtain ⟨c, hc, -⟩ := hmarked id hid
      contradiction
  next c t hbuild =>
    rw [hbuild] at hgrows hbuilt hmarked
    refine stepAnchors_of_none hp hgrows.keepsAnchored rfl ?_ ?_
    · obtain ⟨expected, hexp, hon⟩ := hbuilt c rfl
      exact ⟨expected, hexp, hon.isAncestor⟩
    · intro id hid
      obtain ⟨c', hc', rfl⟩ := hmarked id hid
      rw [Except.ok.inj hc']
      rfl

theorem anchors_landingCas {commit : Id} (now : ℤ)
    (hp : (⟨.writing (.landingCas commit), members⟩ : Progress Id).Holds
      (.writer w) s) (hcareful : (Contributor.writer w).Careful s
      ⟨.writing (.landingCas commit), members⟩) :
    StepAnchors (.writer w) s ((Contributor.writer w).step now s
      ⟨.writing (.landingCas commit), members⟩) := by
  obtain ⟨expected, hexp, hanc⟩ := hp.rooted
  have hlands : commit ∈ members →
      w.repo.advanceRef s w.refName expected commit =
        .ok (true, s.putRef w.repo.activeNamespace w.refName commit) :=
    fun hmem => (hcareful hmem expected hexp).advanceRef
  have hexp' : w.expectedHead? = some expected := hexp
  simp only [Contributor.step, writerStep, Writer.marks, hexp']
  split
  next e hmove =>
    refine stepAnchors_of_landed hp (.refl s) rfl ?_ trivial
    intro hmem
    rw [hlands hmem] at hmove
    contradiction
  next t hmove =>
    rcases w.repo.advanceRef_eq_ok hmove with ⟨hfalse, -, -⟩ | ⟨-, -, rfl⟩
    · simp at hfalse
    · refine stepAnchors_of_landed hp (.refl _) rfl ?_ trivial
      intro hmem
      rw [hlands hmem] at hmove
      simp at hmove
  next t hmove =>
    rcases w.repo.advanceRef_eq_ok hmove with
      ⟨-, href, rfl⟩ | ⟨hfalse, -, -⟩
    · refine stepAnchors_of_landed hp
        (Storage.keepsAnchored_putRef href hanc) rfl ?_ ?_
      · exact fun _ => s.anchored_putRef _ _ commit
      · exact w.afterCas_rooted commit _
    · simp at hfalse

theorem anchors_raising {returned : Id} {fired : List Escalation} (now : ℤ)
    (hp : (⟨.writing (.raising returned fired), members⟩ : Progress Id).Holds
      (.writer w) s) :
    StepAnchors (.writer w) s ((Contributor.writer w).step now s
      ⟨.writing (.raising returned fired), members⟩) := by
  cases fired with
  | nil => exact stepAnchors_idle hp (.refl s) rfl trivial
  | cons e rest =>
      simp only [Contributor.step, writerStep, Writer.marks]
      split
      next => exact stepAnchors_idle hp (.refl s) rfl trivial
      next t hraise =>
        exact stepAnchors_idle hp
          (Storage.createTaint_grows hraise).keepsAnchored rfl trivial

theorem anchors_step {pc : Pc Id} (now : ℤ)
    (hp : (⟨.writing pc, members⟩ : Progress Id).Holds (.writer w) s)
    (hcareful : (Contributor.writer w).Careful s ⟨.writing pc, members⟩) :
    StepAnchors (.writer w) s
      ((Contributor.writer w).step now s ⟨.writing pc, members⟩) := by
  cases pc with
  | start =>
      exact stepAnchors_idle hp (.refl s) rfl (w.begin_rooted now s)
  | reading task attempt => exact anchors_reading now hp
  | building task attempt head isBranch => exact anchors_building now hp hcareful
  | landing task attempt head isBranch commit =>
      exact anchors_landing now hp hcareful
  | buildingCas => exact anchors_buildingCas now hp hcareful
  | landingCas commit => exact anchors_landingCas now hp hcareful
  | raising returned fired => exact anchors_raising now hp
  | done r => exact stepAnchors_idle hp (.refl s) rfl hp.rooted

end Writer

/-! ## Merges -/

namespace Merger

variable {m : Merger} {s : Storage Id}

variable {members : List Id} {attempt : ℕ}

theorem anchors_reading (now : ℤ)
    (hp : (⟨.merging (.reading attempt), members⟩ : Progress Id).Holds
      (.merger m) s) :
    StepAnchors (.merger m) s ((Contributor.merger m).step now s
      ⟨.merging (.reading attempt), members⟩) := by
  simp only [Contributor.step, step, marks]
  split
  next =>
    split
    next => exact stepAnchors_idle hp (.refl s) rfl trivial
    next head isBranch hhead =>
      refine stepAnchors_idle hp (.refl s) rfl ?_
      obtain ⟨old, href⟩ := hp.branch
      rcases m.repo.headForWrite_eq_ok hhead with
        ⟨hbranch, -⟩ | ⟨-, hnone, -⟩
      · exact hbranch
      · simp only [Contributor.ns, Contributor.repo, Contributor.refName] at href
        rw [hnone] at href
        contradiction
  next => exact stepAnchors_idle hp (.refl s) rfl trivial

theorem anchors_computing {isBranch : Bool} (now : ℤ)
    (hp : (⟨.merging (.computing attempt isBranch), members⟩ :
      Progress Id).Holds (.merger m) s)
    (hcareful : (Contributor.merger m).Careful s
      ⟨.merging (.computing attempt isBranch), members⟩) :
    StepAnchors (.merger m) s ((Contributor.merger m).step now s
      ⟨.merging (.computing attempt isBranch), members⟩) := by
  have hbranch : isBranch = true := hp.rooted
  simp only [Contributor.step, step, marks, computeStep]
  cases hcomp : m.compute s with
  | error e => exact stepAnchors_idle hp (.refl s) rfl trivial
  | ok comp =>
      simp only
      cases hresult : comp.result with
      | conflicts o cs => exact stepAnchors_idle hp (.refl s) rfl trivial
      | fastForward ffId => exact stepAnchors_idle hp (.refl s) rfl hbranch
      | success merged =>
          have hone := m.buildMerged_buildsOne comp merged now s
          have hgrows := hone.grows
          have hmarked : ∀ id ∈
              m.repo.marksOf s (m.buildMerged comp merged now s),
              ∃ c, (m.buildMerged comp merged now s m.repo).1 = .ok c ∧
                c.id = id := by
            intro id hid
            exact hone.ok_of_mem_marksOf
              (hcareful (m.repo.isSome_of_mem_marksOf hid)) hid
          simp only
          cases hbuild : m.buildMerged comp merged now s m.repo with
          | mk result t =>
              rw [hbuild] at hgrows hmarked
              cases result with
              | error e =>
                  refine stepAnchors_of_none hp hgrows.keepsAnchored rfl ?_ ?_
                  · trivial
                  · intro id hid
                    obtain ⟨c, hc, -⟩ := hmarked id hid
                    contradiction
              | ok c =>
                  refine stepAnchors_of_none hp hgrows.keepsAnchored rfl ?_ ?_
                  · exact hbranch
                  · intro id hid
                    obtain ⟨c', hc', rfl⟩ := hmarked id hid
                    rw [Except.ok.inj hc']
                    rfl

theorem anchors_landing {isBranch : Bool} {expected commit : Id} (now : ℤ)
    (hp : (⟨.merging (.landing attempt isBranch expected commit), members⟩ :
      Progress Id).Holds (.merger m) s)
    (hcareful : (Contributor.merger m).Careful s
      ⟨.merging (.landing attempt isBranch expected commit), members⟩) :
    StepAnchors (.merger m) s ((Contributor.merger m).step now s
      ⟨.merging (.landing attempt isBranch expected commit), members⟩) := by
  obtain rfl : isBranch = true := hp.rooted
  have hlands : commit ∈ members →
      m.repo.advanceRef s m.target expected commit =
        .ok (true, s.putRef m.repo.activeNamespace m.target commit) :=
    fun hmem => (hcareful.1 hmem).advanceRef
  simp only [Contributor.step, step, marks]
  split
  next e hmove =>
    refine stepAnchors_of_landed hp (.refl s) rfl ?_ trivial
    intro hmem
    rw [Repository.moveRef, if_pos rfl, hlands hmem] at hmove
    contradiction
  next t hmove =>
    obtain ⟨rfl, href⟩ := m.repo.moveRef_eq_ok_true hmove
    refine stepAnchors_of_landed hp (Storage.keepsAnchored_putRef (href rfl)
      (hcareful.2 (href rfl))) rfl ?_ trivial
    exact fun _ => s.anchored_putRef _ _ commit
  next t hmove =>
    rw [Repository.moveRef, if_pos rfl] at hmove
    rcases m.repo.advanceRef_eq_ok hmove with ⟨hfalse, -, -⟩ | ⟨-, -, rfl⟩
    · simp at hfalse
    · refine stepAnchors_of_landed hp (.refl _) rfl ?_ trivial
      intro hmem
      rw [hlands hmem] at hmove
      simp at hmove

theorem anchors_step {pc : MergePc Id} (now : ℤ)
    (hp : (⟨.merging pc, members⟩ : Progress Id).Holds (.merger m) s)
    (hcareful : (Contributor.merger m).Careful s ⟨.merging pc, members⟩) :
    StepAnchors (.merger m) s
      ((Contributor.merger m).step now s ⟨.merging pc, members⟩) := by
  cases pc with
  | reading attempt => exact anchors_reading now hp
  | computing attempt isBranch => exact anchors_computing now hp hcareful
  | landing attempt isBranch expected commit =>
      exact anchors_landing now hp hcareful
  | done r => exact stepAnchors_idle hp (.refl s) rfl hp.rooted

end Merger

theorem Contributor.step_anchors {c : Contributor Id} (now : ℤ)
    {s : Storage Id} {p : Progress Id} (hp : p.Holds c s)
    (hcareful : c.Careful s p) : StepAnchors c s (c.step now s p) := by
  obtain ⟨stage, members⟩ := p
  cases c with
  | writer w =>
      cases stage with
      | writing pc => exact Writer.anchors_step now hp hcareful
      | merging pc => exact ⟨hp, .refl s⟩
  | merger m =>
      cases stage with
      | writing pc => exact ⟨hp, .refl s⟩
      | merging pc => exact Merger.anchors_step now hp hcareful

/-! ## The table of members -/

/-- What a step adds to the recorded members is what it does to the table. -/
def StepRecords (c : Contributor Id) (s : Storage Id) (p : Progress Id)
    (r : Storage Id × Progress Id) : Prop :=
  ∃ marked, r.2.members = p.members ++ marked ∧
    r.1.commitEpoch =
      markAll (c.repo.activeEpoch.getD "") s.commitEpoch marked

theorem Storage.createTaint_commitEpoch {s t : Storage Id} {record : Taint}
    (h : s.createTaint record = .ok t) : t.commitEpoch = s.commitEpoch := by
  unfold createTaint at h
  split at h
  · contradiction
  · rw [← Except.ok.inj h]

theorem Repository.advanceRef_commitEpoch {repo : Repository}
    {s t : Storage Id} {refName : String} {expected commit : Id} {moved : Bool}
    (h : repo.advanceRef s refName expected commit = .ok (moved, t)) :
    t.commitEpoch = s.commitEpoch := by
  rcases repo.advanceRef_eq_ok h with ⟨-, -, rfl⟩ | ⟨-, -, rfl⟩
  · rfl
  · rfl

theorem Repository.moveRef_commitEpoch {repo : Repository}
    {s t : Storage Id} {refName : String} {expected commit : Id}
    {isBranch moved : Bool}
    (h : repo.moveRef s refName expected isBranch commit = .ok (moved, t)) :
    t.commitEpoch = s.commitEpoch := by
  unfold moveRef at h
  split at h
  · exact advanceRef_commitEpoch h
  · obtain ⟨u, hset, h⟩ := Except.bind_eq_ok_iff.mp h
    rw [← (Prod.mk.inj (Except.ok.inj h)).2, repo.guardedSetRef_eq_ok hset]
    rfl

theorem Writer.step_records (w : Writer Id) (now : ℤ) (s : Storage Id)
    (members : List Id) (pc : Pc Id) :
    StepRecords (.writer w) s ⟨.writing pc, members⟩
      ((Contributor.writer w).step now s ⟨.writing pc, members⟩) := by
  refine ⟨w.marks now s pc, rfl, ?_⟩
  simp only [Contributor.step, Contributor.repo]
  cases pc with
  | start => rfl
  | reading task attempt =>
      simp only [writerStep]
      split
      · split <;> rfl
      · rfl
  | building task attempt head isBranch =>
      have htable := (w.buildOn_buildsOne task head now s).commitEpoch
      simp only [writerStep, Writer.marks, Shared.withStore, w.buildStep_eq]
      rw [← htable]
      split
      next e stored hbuild => rw [hbuild]
      next c stored hbuild => rw [hbuild]
  | landing task attempt head isBranch commit =>
      simp only [writerStep, Writer.marks]
      split
      next => rfl
      next t hmove => exact Repository.moveRef_commitEpoch hmove
      next t hmove =>
        have hsame := Repository.moveRef_commitEpoch hmove
        cases task with
        | own => exact hsame
        | intent returned e rest => exact hsame
  | buildingCas =>
      have htable := (w.buildCas_buildsOne now s).commitEpoch
      simp only [writerStep, Writer.marks]
      rw [← htable]
      simp only [Writer.buildCasThrough]
      split
      next e stored hbuild => rw [hbuild]; rfl
      next c stored hbuild => rw [hbuild]; rfl
  | landingCas commit =>
      simp only [writerStep, Writer.marks]
      split
      next => rfl
      next expected hexp =>
        split
        next => rfl
        next t hmove => exact Repository.advanceRef_commitEpoch hmove
        next t hmove => exact Repository.advanceRef_commitEpoch hmove
  | raising returned fired =>
      cases fired with
      | nil => rfl
      | cons e rest =>
          simp only [writerStep, Writer.marks]
          split
          next => rfl
          next t hraise => exact Storage.createTaint_commitEpoch hraise
  | done r => rfl

theorem Merger.step_records (m : Merger) (now : ℤ) (s : Storage Id)
    (members : List Id) (pc : MergePc Id) :
    StepRecords (.merger m) s ⟨.merging pc, members⟩
      ((Contributor.merger m).step now s ⟨.merging pc, members⟩) := by
  refine ⟨m.marks now s pc, rfl, ?_⟩
  simp only [Contributor.step, Contributor.repo]
  cases pc with
  | reading attempt =>
      simp only [step]
      split
      · split <;> rfl
      · rfl
  | computing attempt isBranch =>
      simp only [step, computeStep, marks]
      cases m.compute s with
      | error e => rfl
      | ok comp =>
          simp only
          cases comp.result with
          | conflicts o cs => rfl
          | fastForward ffId => rfl
          | success merged =>
              have htable :=
                (m.buildMerged_buildsOne comp merged now s).commitEpoch
              simp only
              rw [← htable]
              split
              next e stored hbuild => rw [hbuild]
              next c stored hbuild => rw [hbuild]
  | landing attempt isBranch expected commit =>
      simp only [step, marks]
      split
      next => rfl
      next t hmove => exact Repository.moveRef_commitEpoch hmove
      next t hmove => exact Repository.moveRef_commitEpoch hmove
  | done r => rfl

theorem Contributor.step_records (c : Contributor Id) (now : ℤ)
    (s : Storage Id) (p : Progress Id) :
    StepRecords c s p (c.step now s p) := by
  obtain ⟨stage, members⟩ := p
  have hnone : StepRecords c s ⟨stage, members⟩ (s, ⟨stage, members⟩) :=
    ⟨[], by simp, rfl⟩
  cases c with
  | writer w =>
      cases stage with
      | writing pc => exact w.step_records now s members pc
      | merging pc => exact hnone
  | merger m =>
      cases stage with
      | writing pc => exact hnone
      | merging pc => exact m.step_records now s members pc

theorem mem_markAll {epochId : String} {table : List (Id × String)}
    {marked : List Id} {e : Id × String}
    (h : e ∈ markAll epochId table marked) :
    e ∈ table ∨ e.1 ∈ marked ∧ e.2 = epochId := by
  induction marked generalizing table with
  | nil => exact Or.inl h
  | cons id marked ih =>
      rcases ih h with hold | ⟨hmem, hepoch⟩
      · rcases List.mem_append.mp hold with hold | hnew
        · exact Or.inl (List.mem_of_mem_filter hold)
        · rw [List.mem_singleton.mp hnew]
          exact Or.inr ⟨List.mem_cons_self, rfl⟩
      · exact Or.inr ⟨List.mem_cons_of_mem _ hmem, hepoch⟩

/-! ## Every interleaving -/

section Runs

variable [DecidableEq W]

/-- The contributors' assertions, for the rely-guarantee rule. -/
def memberAssertions (agents : W → Contributor Id) :
    Assertions (contributorMachine agents) where
  allowed i _ s p := (agents i).Careful s p
  shared _ := True
  loc i s p := p.Holds (agents i) s
  guarantee s t := s.KeepsAnchored t
  guarantee_refl := Storage.KeepsAnchored.refl
  guarantee_trans _ _ _ := Storage.KeepsAnchored.trans
  step _ now _ _ hcareful _ hp :=
    ⟨trivial, Contributor.step_anchors now hp hcareful⟩
  stable _ _ _ _ hkeeps hp := hp.stable hkeeps

instance (agents : W → Contributor Id) (i : W) (now : ℤ) (s : Storage Id)
    (p : Progress Id) :
    Decidable ((memberAssertions agents).allowed i now s p) :=
  inferInstanceAs (Decidable ((agents i).Careful s p))

omit [DecidableEq W] in
theorem contributorsStart_holds (agents : W → Contributor Id)
    (store : Storage Id)
    (hbranch : ∀ i, (store.refAt (agents i).ns (agents i).refName).isSome = true) :
    (memberAssertions agents).Holds (contributorsStart agents store) := by
  refine ⟨trivial, ?_⟩
  intro i
  have hhead := Option.isSome_iff_exists.mp (hbranch i)
  change ((agents i).start).Holds (agents i) store
  generalize agents i = c at hhead
  cases c with
  | writer w =>
      exact ⟨hhead, trivial, fun id hid => absurd hid List.not_mem_nil⟩
  | merger m =>
      exact ⟨hhead, trivial, fun id hid => absurd hid List.not_mem_nil⟩

omit [DecidableEq W] [Digest Id] in
theorem Stage.pending?_of_returned {stage : Stage Id}
    (h : stage.returned = true) : stage.pending? = none := by
  unfold Stage.returned at h
  split at h
  · rfl
  · rfl
  · simp at h

/-- Writers and merges on stored branches, in any number and any careful
interleaving: what a write recorded as a member is in the history of its ref
once it returned. -/
theorem members_landed (agents : W → Contributor Id) (store : Storage Id)
    (hbranch : ∀ i, (store.refAt (agents i).ns (agents i).refName).isSome = true)
    (schedule : List (W × ℤ))
    (hcareful : (memberAssertions agents).Allowed
      (contributorsStart agents store) schedule) :
    let fin := (contributorMachine agents).run (contributorsStart agents store)
      schedule
    ∀ i, (fin.loc i).stage.returned = true →
      ∀ id ∈ (fin.loc i).members,
        fin.shared.Anchored (agents i).ns (agents i).refName id := by
  intro fin i hdone id hid
  obtain ⟨⟨-, hloc⟩, -⟩ := (memberAssertions agents).holds_run
    (contributorsStart_holds agents store hbranch) hcareful
  rcases (hloc i).members id hid with hanc | hpend
  · exact hanc
  · rw [Stage.pending?_of_returned hdone] at hpend
    contradiction

/-- A member that the table gained was recorded by a contributor, for the epoch
that was active in its handle. -/
theorem table_recorded (agents : W → Contributor Id)
    (c : Config W (Storage Id) (Progress Id)) (schedule : List (W × ℤ)) :
    let fin := (contributorMachine agents).run c schedule
    ∀ e ∈ fin.shared.commitEpoch, e ∈ c.shared.commitEpoch ∨
      ∃ i, e.1 ∈ (fin.loc i).members ∧
        e.2 = (agents i).repo.activeEpoch.getD "" := by
  induction schedule using List.reverseRecOn with
  | nil => exact fun e he => Or.inl he
  | append_singleton before event ih =>
      obtain ⟨i, now⟩ := event
      intro fin e he
      let mid := (contributorMachine agents).run c before
      have hfin : fin = (contributorMachine agents).advance mid (i, now) := by
        simp only [fin, Machine.run_append]
        rfl
      obtain ⟨marked, hmembers, htable⟩ :=
        (agents i).step_records now mid.shared (mid.loc i)
      have hown : (fin.loc i).members = (mid.loc i).members ++ marked := by
        rw [hfin, ← hmembers]
        simp [Machine.advance, contributorMachine]
      have hgrows : ∀ j id, id ∈ (mid.loc j).members →
          id ∈ (fin.loc j).members := by
        intro j id hid
        by_cases hj : j = i
        · subst hj
          rw [hown]
          exact List.mem_append_left _ hid
        · rw [hfin]
          simpa [Machine.advance, Function.update_of_ne hj] using hid
      have he' : e ∈ markAll ((agents i).repo.activeEpoch.getD "")
          mid.shared.commitEpoch marked := by
        rw [← htable]
        rw [hfin] at he
        exact he
      rcases mem_markAll he' with hold | ⟨hmem, hepoch⟩
      · rcases ih e hold with hstart | ⟨j, hj, hepoch⟩
        · exact Or.inl hstart
        · exact Or.inr ⟨j, hgrows j e.1 hj, hepoch⟩
      · refine Or.inr ⟨i, ?_, hepoch⟩
        rw [hown]
        exact List.mem_append_right _ hmem

end Runs

namespace TwoContributors

open ContentKey

/-- The store of two writers, with an active epoch. -/
def store : Storage ContentKey :=
  { TwoWriters.store with
    epochs := [⟨"e", .active, [], .all, some "default"⟩] }

def repo : Repository := { Repository.new with activeEpoch := some "e" }

/-- The two writers, in the epoch. -/
def agents (i : Bool) : Contributor ContentKey :=
  .writer { TwoWriters.writers i with repo := repo }

/-- Both read the same head; the second loses its swap and tries again. -/
def raced : Config Bool (Storage ContentKey) (Progress ContentKey) :=
  (contributorMachine agents).run (contributorsStart agents store)
    (TwoWriters.before ++ TwoWriters.after)

/-- One after the other. -/
def inTurn : List (Bool × ℤ) :=
  [(false, 1), (false, 1), (false, 1), (false, 1), (true, 2), (true, 2),
    (true, 2), (true, 2)]

def fin : Config Bool (Storage ContentKey) (Progress ContentKey) :=
  (contributorMachine agents).run (contributorsStart agents store) inTurn

end TwoContributors

set_option maxRecDepth 16384 in
open TwoContributors in
/-- The attempt that lost its swap stays a member of the epoch, after its
writer returned. -/
theorem members_unlanded_raced :
    (raced.loc true).stage.returned = true ∧
      ∃ id ∈ (raced.loc true).members,
        (id, "e") ∈ raced.shared.commitEpoch ∧
          ¬raced.shared.Anchored (agents true).ns (agents true).refName id := by
  decide

set_option maxRecDepth 16384 in
open TwoContributors in
theorem members_landed_inTurn :
    (fin.loc true).stage.returned = true ∧ (fin.loc true).members ≠ [] ∧
      ∀ id ∈ (fin.loc true).members,
        fin.shared.Anchored (agents true).ns (agents true).refName id := by
  have hdone : (fin.loc true).stage.returned = true := by decide
  refine ⟨hdone, by decide, ?_⟩
  exact members_landed agents store (by decide) inTurn
    (by decide) true hdone

end AgentStateGraph
