import AgentStateGraph.Core.ContentKey
import AgentStateGraph.Sync.MissingTrees

/-!
# Missing sets are complete, and exact when clocks run forward

A remote that holds the haves with their history and trees holds, after
taking a missing set, every stored commit reached from the heads with every
object of its tree, unless the sender itself no longer has the tree's root.
When no commit is older than a parent, the commits sent are exactly those that
the remote lacks.
-/

namespace AgentStateGraph

namespace Missing

open Worklist

variable {Id : Type} [Digest Id]

/-! ## The order of the commits -/

section Order

variable {commits : CommitStore Id} {new : List Id}

theorem orderKey_injective (commits : CommitStore Id) :
    Function.Injective (orderKey commits) := by
  intro a b h
  have hsnd := congrArg
    (fun key : (ℤ ×ₗ Id)ᵒᵈ => (ofLex (OrderDual.ofDual key)).2) h
  exact hsnd

theorem parentsFirst_spec (hnew : new.Nodup) :
    (parentsFirst commits new).Nodup ∧
      (∀ x, x ∈ parentsFirst commits new ↔ x ∈ new) ∧
      ∀ l x r, parentsFirst commits new = l ++ x :: r →
        ∀ p ∈ commits.parents x, p ∈ new → p ∈ l := by
  have hinside : ∀ x ∈ new,
      ∀ p ∈ ((commits.parents x).filter (· ∈ new)).dedup, p ∈ new := by
    intro x _ p hp
    have hp := (List.mem_filter.mp (List.mem_dedup.mp hp)).2
    simpa using hp
  have hrank : ∀ x ∈ new, ∀ p ∈ ((commits.parents x).filter (· ∈ new)).dedup,
      Digest.rank p < Digest.rank x := by
    intro x _ p hp
    have hp := (List.mem_filter.mp (List.mem_dedup.mp hp)).1
    exact CommitStore.rank_lt_of_mem_parents hp
  have hvertex : ∀ x, (fun key : (ℤ ×ₗ Id)ᵒᵈ =>
      (ofLex (OrderDual.ofDual key)).2) (orderKey commits x) = x :=
    fun _ => rfl
  obtain ⟨hnodup, hmem, hafter⟩ := TopologicalOrder.sort_spec
    (orderKey_injective commits) hvertex hnew (fun _ => List.nodup_dedup _)
    hinside hrank
  refine ⟨hnodup, hmem, ?_⟩
  intro l x r heq p hp hpn
  exact hafter l x r heq p
    (List.mem_dedup.mpr (List.mem_filter.mpr ⟨hp, by simpa using hpn⟩))

end Order

/-! ## What the sends account for -/

section Send

variable {store : Storage Id} {remote : ObjectStore Id} {w : Walk Id}
  {new : List Id}

/-- What the remote has whole, or is sent. -/
def Accounted (remote : ObjectStore Id) (sent : List Id) (x : Id) : Prop :=
  remote.Complete x ∨ x ∈ sent

/-- What is sent is out, with every child accounted for. -/
def SentInv (store remote : ObjectStore Id) (sent out : List Id) : Prop :=
  ∀ x ∈ sent, remote.Complete x ∨
    (x ∈ out ∧ ∃ o, store.get x = some o ∧
      ∀ c ∈ o.childIds, Accounted remote sent c)

theorem get_unique {s t : ObjectStore Id} {x : Id} {o p : Object Id}
    (hs : s.get x = some o) (ht : t.get x = some p) : o = p :=
  Object.id_injective
    ((ObjectStore.id_eq_of_get hs).trans (ObjectStore.id_eq_of_get ht).symm)

theorem backed_accounted {objects : ObjectStore Id} {sent out : List Id}
    (h : SentInv objects remote sent out) :
    Backed objects (Accounted remote sent) := by
  intro x hx o ho c hc
  have hwhole : remote.Complete x → Accounted remote sent c := by
    intro hx
    obtain ⟨p, hp⟩ := hx.exists_get
    obtain rfl := get_unique ho hp
    exact Or.inl (hx.child hp hc)
  rcases hx with hx | hx
  · exact hwhole hx
  · rcases h x hx with hx | ⟨-, p, hp, hkids⟩
    · exact hwhole hx
    · obtain rfl := get_unique ho hp
      exact hkids c hc

/-- What holds after the trees of the commits `done` are sent. -/
structure SendInv (store : Storage Id) (remote : ObjectStore Id)
    (done : List Id) (s : Sending Id) : Prop where
  sent : SentInv store.objects remote s.1 s.2.1
  roots : ∀ x ∈ done, ∀ r, store.rootOf x = some r →
    Accounted remote s.1 r ∨ store.objects.get r = none
  pruned : ∀ x ∈ s.2.2, ∀ r, store.rootOf x = some r →
    store.objects.get r = none

theorem sendInv_sendTree
    (hhave : ∀ p r, (w.marks p).remoteHas = true → store.rootOf p = some r →
      remote.Complete r)
    {done : List Id} {id : Id}
    (hparents : ∀ p ∈ store.commits.parents id, p ∈ new → p ∈ done)
    {s s' : Sending Id} (h : SendInv store remote done s)
    (hrun : sendTree store w new s id = .ok s') :
    SendInv store remote (done ++ [id]) s' := by
  obtain ⟨sent, out, pruned⟩ := s
  simp only [sendTree] at hrun
  split at hrun
  · contradiction
  next c hc =>
    obtain ⟨⟨found, sent', out'⟩, hdiff, hrun⟩ := Except.bind_eq_ok_iff.mp hrun
    obtain rfl := Except.ok.inj hrun
    have hroot : store.rootOf id = some c.stateRoot :=
      Storage.rootOf_of_getCommit hc
    have hbases : ∀ b ∈ basesOf store w new id,
        Accounted remote sent b ∨ store.objects.get b = none := by
      intro b hb
      obtain ⟨p, hp, hpr⟩ := List.mem_filterMap.mp hb
      obtain ⟨hparent, hknown⟩ := List.mem_filter.mp hp
      rw [Bool.or_eq_true, decide_eq_true_eq] at hknown
      rcases hknown with hpn | hrem
      · exact h.roots p (hparents p hparent hpn) b hpr
      · exact Or.inl (Or.inl (hhave p b hrem hpr))
    obtain ⟨hsent, hmore, hout, hdone, hpruned⟩ :=
      diffTree_spec (backed_accounted h.sent) hbases
        (fun x hx => Or.inr hx) hdiff
    have hkeep : ∀ x, Accounted remote sent x → Accounted remote sent' x :=
      fun x hx => hx.imp_right (hmore x)
    refine ⟨?_, ?_, ?_⟩
    · intro x hx
      rcases hsent x hx with (hwhole | hold) | ⟨hxo, o, ho, hkids⟩
      · exact Or.inl hwhole
      · rcases h.sent x hold with hwhole | ⟨hxo, o, ho, hkids⟩
        · exact Or.inl hwhole
        · exact Or.inr ⟨hout x hxo, o, ho, fun k hk => hkeep k (hkids k hk)⟩
      · refine Or.inr ⟨hxo, o, ho, ?_⟩
        intro k hk
        rcases hkids k hk with hk | hk
        · exact hkeep k hk
        · exact Or.inr hk
    · intro x hx r hr
      rcases List.mem_append.mp hx with hx | hx
      · exact (h.roots x hx r hr).imp_left (hkeep r)
      · obtain rfl := List.mem_singleton.mp hx
        obtain rfl := Option.some.inj (hroot.symm.trans hr)
        rcases hdone with hacc | hmem | hgone
        · exact Or.inl (hkeep _ hacc)
        · exact Or.inl (Or.inr hmem)
        · exact Or.inr hgone
    · intro x hx r hr
      simp only at hx
      split at hx
      · exact h.pruned x hx r hr
      next hnot =>
        rcases List.mem_append.mp hx with hx | hx
        · exact h.pruned x hx r hr
        · obtain rfl := List.mem_singleton.mp hx
          obtain rfl := Option.some.inj (hroot.symm.trans hr)
          exact hpruned (by simpa using hnot)

theorem sendInv_foldlM
    (hhave : ∀ p r, (w.marks p).remoteHas = true → store.rootOf p = some r →
      remote.Complete r)
    {ids : List Id}
    (hafter : ∀ l x r, ids = l ++ x :: r →
      ∀ p ∈ store.commits.parents x, p ∈ new → p ∈ l)
    {s' : Sending Id} (hrun : ids.foldlM (sendTree store w new) ([], [], []) =
      .ok s') : SendInv store remote ids s' := by
  have hloop : ∀ (rest done : List Id) (s : Sending Id), ids = done ++ rest →
      SendInv store remote done s →
      rest.foldlM (sendTree store w new) s = .ok s' →
      SendInv store remote ids s' := by
    intro rest
    induction rest with
    | nil =>
        intro done s heq h hrun
        obtain rfl := Except.ok.inj hrun
        rw [heq, List.append_nil]
        exact h
    | cons x rest ih =>
        intro done s heq h hrun
        rw [List.foldlM_cons] at hrun
        obtain ⟨s₁, hstep, hrest⟩ := Except.bind_eq_ok_iff.mp hrun
        refine ih (done ++ [x]) s₁ (by rw [heq]; simp) ?_ hrest
        exact sendInv_sendTree hhave (hafter done x rest heq) h hstep
  refine hloop ids [] ([], [], []) rfl ⟨?_, ?_, ?_⟩ hrun
  · intro x hx
    simp at hx
  · intro x hx
    simp at hx
  · intro x hx
    simp at hx

theorem complete_of_accounted {objects : ObjectStore Id} {sent out : List Id}
    (h : SentInv objects remote sent out) {x : Id}
    (hx : Accounted remote sent x) :
    ObjectStore.Complete (remote.putAll (out.filterMap objects.get)) x := by
  have hle := ObjectStore.le_putAll remote (out.filterMap objects.get)
  -- Whatever is accounted for is stored, and leads to the like.
  have hstep : ∀ y, Accounted remote sent y →
      ∃ o, (remote.putAll (out.filterMap objects.get)).get y = some o ∧
        ∀ c ∈ o.childIds, Accounted remote sent c := by
    intro y hy
    have hwhole : remote.Complete y →
        ∃ o, (remote.putAll (out.filterMap objects.get)).get y = some o ∧
          ∀ c ∈ o.childIds, Accounted remote sent c := by
      intro hy
      obtain ⟨o, ho⟩ := hy.exists_get
      exact ⟨o, hle y o ho, fun c hc => Or.inl (hy.child ho hc)⟩
    rcases hy with hy | hy
    · exact hwhole hy
    · rcases h y hy with hy | ⟨hout, o, ho, hkids⟩
      · exact hwhole hy
      · refine ⟨o, ?_, hkids⟩
        rw [← ObjectStore.id_eq_of_get ho]
        exact AddressedMap.get_putAll_of_mem Object.id_injective remote
          (List.mem_filterMap.mpr ⟨y, hout, ho⟩)
  intro y hy
  have hacc : Accounted remote sent y := by
    refine hy.mem_of_closed ?_ hx
    intro z hz c hc
    obtain ⟨o, ho, hkids⟩ := hstep z hz
    rw [ObjectStore.children_of_get ho] at hc
    exact hkids c hc
  obtain ⟨o, ho, -⟩ := hstep y hacc
  rw [ho]
  rfl

end Send

/-! ## The missing set -/

section MissingSet

variable {store remote : Storage Id} {heads haves shallow : List Id}
  {m : MissingSet Id}

/-- The store after it took the commits and objects of a missing set. -/
def deliver (store remote : Storage Id) (m : MissingSet Id) : Storage Id :=
  { remote with
    objects := remote.objects.putAll (m.objects.filterMap store.getObject)
    commits := remote.commits.putAll (m.commits.filterMap store.getCommit) }

/-- A store holds a commit with its whole ancestry and every tree. -/
def HoldsHistory (remote : Storage Id) (v : Id) : Prop :=
  ∀ x, remote.commits.IsAncestor x v →
    ∃ c, remote.getCommit x = some c ∧ remote.objects.Complete c.stateRoot

theorem getCommit_unique {s t : CommitStore Id} {x : Id} {c d : Commit Id}
    (hs : s.get x = some c) (ht : t.get x = some d) : c = d :=
  Commit.id_injective
    ((CommitStore.id_eq_of_get hs).trans (CommitStore.id_eq_of_get ht).symm)

theorem holds_of_fromHaves (hremote : ∀ v ∈ haves, HoldsHistory remote v)
    {x : Id} (hx : FromHaves store.commits haves x) :
    ∃ c, remote.getCommit x = some c ∧
      remote.objects.Complete c.stateRoot := by
  obtain ⟨v, hv, hreach⟩ := hx
  have hanc : remote.commits.IsAncestor x v := by
    induction hreach with
    | refl => exact CommitStore.IsAncestor.refl _ v
    | @tail y z _ hz ih =>
        obtain ⟨c, hc, -⟩ := hremote v hv y ih
        have hzc : z ∈ remote.commits.parents y := by
          simp only [CommitStore.parents] at hz
          split at hz
          next d hd =>
            obtain rfl := getCommit_unique hd hc
            rw [CommitStore.parents_of_get hc]
            exact hz
          next => simp at hz
        exact (CommitStore.IsAncestor.of_mem_parents hzc).trans ih
  exact hremote v hv x hanc

theorem missingSet_eq_ok (h : missingSet store heads haves shallow = .ok m) :
    ∃ w s, Walk.Over store.commits heads haves shallow w ∧
      m.commits = parentsFirst store.commits w.newCommits ∧
      m.commits.foldlM (sendTree store w w.newCommits) ([], [], []) = .ok s ∧
      m.objects = s.2.1 ∧ m.pruned = s.2.2 ∧
      m.shallow = m.commits.filter fun id =>
        decide (id ∈ shallow) || decide (id ∈ w.lacksParent) := by
  obtain ⟨w, hwalk, h⟩ := Except.bind_eq_ok_iff.mp h
  obtain ⟨⟨sent, objects, pruned⟩, hsend, h⟩ := Except.bind_eq_ok_iff.mp h
  obtain rfl := Except.ok.inj h
  exact ⟨w, _, Walk.over_of_fromHeads hwalk, rfl, hsend, rfl, rfl, rfl⟩

theorem nodup_newCommits {w : Walk Id}
    (h : Walk.Over store.commits heads haves shallow w) :
    w.newCommits.Nodup :=
  h.inv.nodup.filter _

/-- Whatever the graph, the boundary and the clocks: the commits are listed
once, parents first, and a remote that holds the haves with their history ends
up with every stored commit reached from the heads, and with its tree unless
the sender no longer has its root. -/
theorem missingSet_complete (hremote : ∀ v ∈ haves, HoldsHistory remote v)
    (h : missingSet store heads haves shallow = .ok m) :
    m.commits.Nodup ∧
      (∀ l x r, m.commits = l ++ x :: r →
        ∀ p ∈ store.commits.parents x, p ∈ m.commits → p ∈ l) ∧
      ∀ x c, store.getCommit x = some c →
        FromHeads store.commits heads shallow x →
        (deliver store remote m).getCommit x = some c ∧
        (store.getObject c.stateRoot ≠ none →
          (deliver store remote m).objects.Complete c.stateRoot) := by
  obtain ⟨w, s, hover, hcommits, hsend, hobjects, -, -⟩ := missingSet_eq_ok h
  obtain ⟨hnodup, hmem, hafter⟩ :=
    @parentsFirst_spec Id _ store.commits _ (nodup_newCommits hover)
  rw [← hcommits] at hnodup hmem hafter
  have hhave : ∀ p r, (w.marks p).remoteHas = true → store.rootOf p = some r →
      remote.objects.Complete r := by
    intro p r hrem hr
    obtain ⟨c, hc, hwhole⟩ :=
      holds_of_fromHaves hremote (hover.inv.remoteHas p hrem).2
    obtain ⟨d, hd, rfl⟩ := Option.map_eq_some_iff.mp hr
    obtain rfl := getCommit_unique hd hc
    exact hwhole
  have hinv := sendInv_foldlM hhave hafter hsend
  have hwhole : ∀ r, Accounted remote.objects s.1 r →
      (deliver store remote m).objects.Complete r := by
    intro r hr
    have hcomplete := complete_of_accounted hinv.sent hr
    rw [← hobjects] at hcomplete
    exact hcomplete
  refine ⟨hnodup, ?_, ?_⟩
  · intro l x r heq p hp hpm
    exact hafter l x r heq p hp ((hmem p).mp hpm)
  · intro x c hc hfrom
    by_cases hhaves : FromHaves store.commits haves x
    · obtain ⟨d, hd, hcomplete⟩ := holds_of_fromHaves hremote hhaves
      obtain rfl := getCommit_unique hc hd
      refine ⟨?_, fun _ => hwhole _ (Or.inl hcomplete)⟩
      exact AddressedMap.le_putAll Commit.id_injective _ _ x c hd
    · have hnew := hover.mem_newCommits hfrom (by
        rw [Storage.getCommit] at hc
        rw [hc]
        rfl) hhaves
      have hxm := (hmem x).mpr hnew
      refine ⟨?_, ?_⟩
      · rw [← CommitStore.id_eq_of_get hc]
        exact AddressedMap.get_putAll_of_mem Commit.id_injective _
          (List.mem_filterMap.mpr ⟨x, hxm, hc⟩)
      · intro hstored
        rcases hinv.roots x hxm _ (Storage.rootOf_of_getCommit hc) with
          hacc | hgone
        · exact hwhole _ hacc
        · exact absurd hgone hstored

/-- A store whose trees are whole, or gone from the root on, finds the missing
set of any heads it has. -/
theorem exists_missingSet (haves shallow : List Id)
    (hheads : ∀ id ∈ heads, (store.getCommit id).isSome = true)
    (htrees : ∀ x c, store.getCommit x = some c →
      store.objects.Complete c.stateRoot ∨
        store.getObject c.stateRoot = none) :
    ∃ m, missingSet store heads haves shallow = .ok m := by
  obtain ⟨w, hw⟩ := @Walk.exists_fromHeads Id _ store.commits heads haves
    shallow hheads
  have hover := Walk.over_of_fromHeads hw
  obtain ⟨-, hmem, -⟩ :=
    @parentsFirst_spec Id _ store.commits _ (nodup_newCommits hover)
  have hloop : ∀ (ids : List Id) (s : Sending Id),
      (∀ x ∈ ids, (store.getCommit x).isSome = true) →
      ∃ s', ids.foldlM (sendTree store w w.newCommits) s = .ok s' := by
    intro ids
    induction ids with
    | nil => exact fun s _ => ⟨s, rfl⟩
    | cons x ids ih =>
        intro s hids
        obtain ⟨c, hc⟩ := Option.isSome_iff_exists.mp (hids x (by simp))
        obtain ⟨⟨found, sent, out⟩, hr⟩ := exists_diffTree
          (basesOf store w w.newCommits x) s.1 s.2.1 (htrees x c hc)
        have hstep : ∃ s₁, sendTree store w w.newCommits s x = .ok s₁ :=
          ⟨_, by simp only [sendTree, hc, hr, Except.ok_bind]; rfl⟩
        obtain ⟨s₁, hs₁⟩ := hstep
        rw [List.foldlM_cons, hs₁, Except.ok_bind]
        exact ih s₁ fun y hy => hids y (List.mem_cons_of_mem _ hy)
  obtain ⟨s, hs⟩ := hloop (parentsFirst store.commits w.newCommits)
    ([], [], []) fun x hx => (hover.of_mem_newCommits ((hmem x).mp hx)).1
  exact ⟨_, by simp only [missingSet, hw, Except.ok_bind, hs]; rfl⟩

/-- When no commit is older than a parent, the commits of a missing set are
those reached from the heads and not from the haves. -/
theorem missingSet_exact
    (hclock : ∀ c p, store.getCommit c.id = some c →
      store.getCommit p.id = some p → p.id ∈ c.parents →
      p.timestamp ≤ c.timestamp)
    (h : missingSet store heads haves [] = .ok m) (x : Id) :
    x ∈ m.commits ↔ (store.getCommit x).isSome = true ∧
      (∃ r ∈ heads, store.commits.IsAncestor x r) ∧
      ¬∃ v ∈ haves, store.commits.IsAncestor x v := by
  obtain ⟨w, s, hover, hcommits, -⟩ := missingSet_eq_ok h
  obtain ⟨-, hmem, -⟩ :=
    @parentsFirst_spec Id _ store.commits _ (nodup_newCommits hover)
  have hcut : cutParents store.commits [] = store.commits.parents := by
    funext id
    simp [cutParents]
  rw [hcommits, hmem, hover.mem_newCommits_iff hclock, FromHeads, hcut]
  rfl

end MissingSet

/-! ## A store with two commits -/

def sampleTree : Object ContentKey :=
  ContentKey.mapOf [("a", Object.string "x")]

def trunk : Commit ContentKey := ContentKey.commitOf Object.emptyMap [] 0

def tip : Commit ContentKey := ContentKey.commitOf sampleTree [trunk] 1

def sender : Storage ContentKey :=
  { Storage.new with
    objects := AddressedMap.empty.putAll
      [Object.emptyMap, Object.string "x", sampleTree]
    commits := AddressedMap.empty.putAll [trunk, tip] }

/-- A store that has the first commit. -/
def receiver : Storage ContentKey :=
  { Storage.new with
    objects := AddressedMap.empty.put Object.emptyMap
    commits := AddressedMap.empty.put trunk }

/-- What the receiver lacks of the second commit. -/
def sampleMissing : MissingSet ContentKey where
  commits := [tip.id]
  objects := [sampleTree.id, (Object.string "x" : Object ContentKey).id]
  shallow := []
  pruned := []

set_option maxRecDepth 16384 in
theorem missingSet_sample :
    missingSet sender [tip.id] [trunk.id] [] = .ok sampleMissing := by
  decide

theorem holdsHistory_receiver : HoldsHistory receiver trunk.id := by
  have hget : receiver.getCommit trunk.id = some trunk := by decide
  have hparents : receiver.commits.parents trunk.id = [] := by decide
  intro x hx
  rcases Relation.ReflTransGen.cases_head hx with rfl | ⟨y, hy, -⟩
  · refine ⟨trunk, hget, ?_⟩
    exact ObjectStore.complete_of_isClosed (by decide)
      (by decide)
  · rw [hparents] at hy
    simp at hy

set_option maxRecDepth 16384 in
/-- The receiver ends up with the second commit and its tree. -/
theorem missingSet_complete_sample :
    (deliver sender receiver sampleMissing).getCommit tip.id = some tip ∧
      (deliver sender receiver sampleMissing).objects.Complete
        tip.stateRoot := by
  have hremote : ∀ v ∈ [trunk.id], HoldsHistory receiver v := by
    intro v hv
    rw [List.mem_singleton.mp hv]
    exact holdsHistory_receiver
  obtain ⟨-, -, hall⟩ := missingSet_complete hremote missingSet_sample
  obtain ⟨hcommit, htree⟩ := hall tip.id tip (by decide)
    ⟨tip.id, by simp, Reaches.refl _ _⟩
  exact ⟨hcommit, htree (by decide)⟩

set_option maxRecDepth 16384 in
theorem exists_missingSet_sender :
    ∃ m, missingSet sender [tip.id] [trunk.id] [] = .ok m := by
  refine exists_missingSet [trunk.id] [] (by simp; decide) ?_
  intro x c hc
  have hmem : c = trunk ∨ c = tip := by
    rcases AddressedMap.get_putAll hc with hempty | hlist
    · simp at hempty
    · simpa using hlist
  rcases hmem with rfl | rfl
  · exact Or.inl (ObjectStore.complete_of_isClosed (by decide) (by decide))
  · exact Or.inl (ObjectStore.complete_of_isClosed (by decide) (by decide))

/-- A store whose one commit's tree a retention sweep took. -/
def swept : Storage ContentKey :=
  { Storage.new with commits := AddressedMap.empty.put trunk }

/-- The commit is sent without its tree. -/
theorem missingSet_swept_incomplete :
    ∃ m, missingSet swept [trunk.id] [] [] = .ok m ∧
      ¬∀ x c, swept.getCommit x = some c →
        FromHeads swept.commits [trunk.id] [] x →
        (deliver swept Storage.new m).getCommit x = some c ∧
        (deliver swept Storage.new m).objects.Complete c.stateRoot := by
  refine ⟨⟨[trunk.id], [], [], [trunk.id]⟩, by decide, ?_⟩
  intro hall
  obtain ⟨-, hwhole⟩ := hall trunk.id trunk (by decide)
    ⟨trunk.id, by simp, Reaches.refl _ _⟩
  have hroot := hwhole trunk.stateRoot (Reaches.refl _ _)
  exact absurd hroot (by decide)

/-- The first commit, which the receiver has, is not sent. -/
theorem missingSet_exact_sample : trunk.id ∉ sampleMissing.commits := by
  have hclock : ∀ c p, sender.getCommit c.id = some c →
      sender.getCommit p.id = some p → p.id ∈ c.parents →
      p.timestamp ≤ c.timestamp := by
    have hmem : ∀ c, sender.getCommit c.id = some c → c = trunk ∨ c = tip := by
      intro c hc
      rcases AddressedMap.get_putAll hc with hempty | hlist
      · simp at hempty
      · simpa using hlist
    intro c p hc hp hpc
    rcases hmem c hc with rfl | rfl
    · rcases hmem p hp with rfl | rfl
      · exact le_rfl
      · exact absurd hpc (by decide)
    · rcases hmem p hp with rfl | rfl
      · decide
      · exact le_rfl
  rw [missingSet_exact hclock missingSet_sample]
  rintro ⟨-, -, hnot⟩
  exact hnot ⟨trunk.id, by simp, CommitStore.IsAncestor.refl _ _⟩

end Missing

end AgentStateGraph
