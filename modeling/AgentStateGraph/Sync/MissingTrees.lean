import AgentStateGraph.Sync.MissingWalk

/-!
# What the tree diffs send

A set of ids that no stored object leads out of is backed.  What a remote has
whole is backed, and each tree diff against backed trees makes the trees sent
so far backed too.
-/

namespace AgentStateGraph

namespace Missing

open Worklist

variable {Id : Type} [Digest Id]

/-! ## Children by slot -/

omit [Digest Id] in
theorem map_snd_slots (o : Object Id) : (slots o).map Prod.snd = o.childIds := by
  match o with
  | .atom _ => rfl
  | .node (.map entries) => simp [slots, Object.childIds]
  | .node (.list items) =>
      simp [slots, Object.childIds, Function.comp_def]
  | .node (.set items) =>
      simp [slots, Object.childIds, Function.comp_def]

omit [Digest Id] in
theorem mem_childIds_of_childAt {o : Object Id} {slot : Slot} {c : Id}
    (h : childAt o slot = some c) : c ∈ o.childIds := by
  match o, slot with
  | .node (.map entries), .key k =>
      exact Object.mem_childIds_of_getElem? h
  | .node (.list items), .index i => exact List.mem_of_getElem? h
  | .atom _, _ => simp [childAt] at h
  | .node (.set _), _ => simp [childAt] at h
  | .node (.map _), .index _ => simp [childAt] at h
  | .node (.map _), .member => simp [childAt] at h
  | .node (.list _), .key _ => simp [childAt] at h
  | .node (.list _), .member => simp [childAt] at h

/-! ## One node -/

/-- What sending one node's children does. -/
structure SendsChildren (bases : List (Object Id)) (ids : List Id)
    (t t' : TreeWalk Id) : Prop where
  out : t'.out = t.out
  sent : ∀ x ∈ t.sent, x ∈ t'.sent
  next : ∀ n ∈ t.next, n ∈ t'.next
  /-- What is newly sent comes in the next level. -/
  fresh : ∀ x ∈ t'.sent, x ∈ t.sent ∨ ∃ n ∈ t'.next, n.1 = x
  /-- A node of the next level is a child, diffed against bases' children. -/
  nodes : ∀ n ∈ t'.next, n ∈ t.next ∨
    (n.1 ∈ ids ∧ ∀ b ∈ n.2, ∃ base ∈ bases, b ∈ base.childIds)
  /-- Every child is a base's child or sent. -/
  covered : ∀ x ∈ ids, (∃ base ∈ bases, x ∈ base.childIds) ∨ x ∈ t'.sent

theorem foldl_diffChild (bases : List (Object Id)) (entries : List (Slot × Id))
    (t : TreeWalk Id) :
    SendsChildren bases (entries.map Prod.snd) t
      (entries.foldl (diffChild bases) t) := by
  induction entries generalizing t with
  | nil =>
      exact ⟨rfl, fun _ h => h, fun _ h => h, fun _ h => Or.inl h,
        fun _ h => Or.inl h, by simp⟩
  | cons e entries ih =>
      have hknown : e.2 ∈ bases.flatMap (fun b => (slots b).map Prod.snd) ↔
          ∃ base ∈ bases, e.2 ∈ base.childIds := by
        simp only [List.mem_flatMap, map_snd_slots]
      -- A child that is skipped, and one that joins the next level.
      have hskip : (∃ base ∈ bases, e.2 ∈ base.childIds) ∨ e.2 ∈ t.sent →
          diffChild bases t e = t →
          SendsChildren bases ((e :: entries).map Prod.snd) t
            ((e :: entries).foldl (diffChild bases) t) := by
        intro hcov heq
        rw [List.foldl_cons, heq]
        have hih := ih t
        refine ⟨hih.out, hih.sent, hih.next, hih.fresh, ?_, ?_⟩
        · intro n hn
          refine (hih.nodes n hn).imp_right ?_
          rintro ⟨hmem, hb⟩
          exact ⟨List.mem_cons_of_mem _ hmem, hb⟩
        · intro x hx
          rcases List.mem_cons.mp hx with rfl | hx
          · exact hcov.imp_right (hih.sent _)
          · exact hih.covered x hx
      by_cases hbase : e.2 ∈ bases.flatMap (fun b => (slots b).map Prod.snd)
      · exact hskip (Or.inl (hknown.mp hbase))
          (by rw [diffChild, if_pos hbase])
      · by_cases hsent : e.2 ∈ t.sent
        · exact hskip (Or.inr hsent)
            (by rw [diffChild, if_neg hbase, if_pos hsent])
        · have hih := ih (diffChild bases t e)
          have hstep : diffChild bases t e = { t with
              sent := e.2 :: t.sent
              next := t.next ++
                [(e.2, bases.filterMap fun b => childAt b e.1)] } := by
            rw [diffChild, if_neg hbase, if_neg hsent]
          rw [List.foldl_cons]
          rw [hstep] at hih ⊢
          refine ⟨hih.out, ?_, ?_, ?_, ?_, ?_⟩
          · intro x hx
            exact hih.sent x (List.mem_cons_of_mem _ hx)
          · intro n hn
            exact hih.next n (List.mem_append_left _ hn)
          · intro x hx
            rcases hih.fresh x hx with hx | hx
            · rcases List.mem_cons.mp hx with rfl | hx
              · exact Or.inr ⟨_, hih.next _
                  (List.mem_append_right _ List.mem_cons_self), rfl⟩
              · exact Or.inl hx
            · exact Or.inr hx
          · intro n hn
            rcases hih.nodes n hn with hn | ⟨hmem, hb⟩
            · rcases List.mem_append.mp hn with hn | hn
              · exact Or.inl hn
              · obtain rfl := List.mem_singleton.mp hn
                refine Or.inr ⟨List.mem_cons_self, ?_⟩
                intro b hb
                obtain ⟨base, hmem, hat⟩ := List.mem_filterMap.mp hb
                exact ⟨base, hmem, mem_childIds_of_childAt hat⟩
            · exact Or.inr ⟨List.mem_cons_of_mem _ hmem, hb⟩
          · intro x hx
            rcases List.mem_cons.mp hx with rfl | hx
            · exact Or.inr (hih.sent _ List.mem_cons_self)
            · exact hih.covered x hx

/-! ## Backed sets -/

/-- No stored object leads out of the set. -/
def Backed (store : ObjectStore Id) (D : Id → Prop) : Prop :=
  ∀ x, D x → ∀ o, store.get x = some o → ∀ c ∈ o.childIds, D c

/-- What the level loop keeps, with `nodes` left of the level: each sent id is
in the set, or out with its children accounted for, or still to come. -/
structure LevelInv (store : ObjectStore Id) (D : Id → Prop) (nodes : Level Id)
    (t : TreeWalk Id) : Prop where
  bases : ∀ n, n ∈ nodes ∨ n ∈ t.next → ∀ b ∈ n.2, D b ∨ store.get b = none
  sent : ∀ x ∈ t.sent, D x ∨
    (x ∈ t.out ∧ ∃ o, store.get x = some o ∧
      ∀ c ∈ o.childIds, D c ∨ c ∈ t.sent) ∨
    ∃ n, (n ∈ nodes ∨ n ∈ t.next) ∧ n.1 = x

section Levels

variable {store : ObjectStore Id} {D : Id → Prop}

variable {nodes : Level Id} {t t' : TreeWalk Id}

theorem levelInv_diffNode (hD : Backed store D) {node : Id × List Id}
    (h : LevelInv store D (node :: nodes) t)
    (hrun : diffNode store t node = .ok t') :
    LevelInv store D nodes t' ∧ (∀ x ∈ t.sent, x ∈ t'.sent) ∧
      (∀ x ∈ t.out, x ∈ t'.out) ∧
      ∀ n ∈ t'.next, n ∈ t.next ∨ Digest.rank n.1 < Digest.rank node.1 := by
  simp only [diffNode] at hrun
  split at hrun
  · contradiction
  next object hget =>
    obtain rfl := Except.ok.inj hrun
    have hs := foldl_diffChild (node.2.filterMap store.get) (slots object)
      { t with out := t.out ++ [node.1] }
    rw [map_snd_slots] at hs
    have hbase : ∀ base ∈ node.2.filterMap store.get, ∀ c ∈ base.childIds,
        D c := by
      intro base hbase c hc
      obtain ⟨b, hb, hgetb⟩ := List.mem_filterMap.mp hbase
      rcases h.bases node (Or.inl List.mem_cons_self) b hb with hDb | hnone
      · exact hD b hDb base hgetb c hc
      · rw [hgetb] at hnone
        contradiction
    refine ⟨⟨?_, ?_⟩, hs.sent, ?_, ?_⟩
    · rintro n (hn | hn) b hb
      · exact h.bases n (Or.inl (List.mem_cons_of_mem _ hn)) b hb
      · rcases hs.nodes n hn with hn | ⟨-, hfrom⟩
        · exact h.bases n (Or.inr hn) b hb
        · obtain ⟨base, hmem, hc⟩ := hfrom b hb
          exact Or.inl (hbase base hmem b hc)
    · have hself : node.1 ∈ t.out ++ [node.1] := by simp
      have hdone : ∀ c ∈ object.childIds, D c ∨
          c ∈ ((slots object).foldl (diffChild (node.2.filterMap store.get))
            { t with out := t.out ++ [node.1] }).sent := by
        intro c hc
        refine (hs.covered c hc).imp_left ?_
        rintro ⟨base, hmem, hcb⟩
        exact hbase base hmem c hcb
      intro x hx
      by_cases hxn : x = node.1
      · subst hxn
        rw [hs.out]
        exact Or.inr (Or.inl ⟨hself, object, hget, hdone⟩)
      · rcases hs.fresh x hx with hold | ⟨n, hn, rfl⟩
        · rcases h.sent x hold with hDx | ⟨hout, o, ho, hkids⟩ | ⟨n, hn, rfl⟩
          · exact Or.inl hDx
          · refine Or.inr (Or.inl ⟨?_, o, ho, ?_⟩)
            · rw [hs.out]
              exact List.mem_append_left _ hout
            · intro c hc
              exact (hkids c hc).imp_right (hs.sent c)
          · refine Or.inr (Or.inr ⟨n, ?_, rfl⟩)
            rcases hn with hn | hn
            · refine Or.inl ((List.mem_cons.mp hn).resolve_left ?_)
              rintro rfl
              exact hxn rfl
            · exact Or.inr (hs.next n hn)
        · exact Or.inr (Or.inr ⟨n, Or.inr hn, rfl⟩)
    · intro x hx
      rw [hs.out]
      exact List.mem_append_left _ hx
    · intro n hn
      refine (hs.nodes n hn).imp_right ?_
      rintro ⟨hc, -⟩
      exact ObjectStore.rank_lt_of_get hget hc

theorem levelInv_foldlM (hD : Backed store D) {n : ℕ}
    (h : LevelInv store D nodes t)
    (hrank : ∀ node ∈ nodes, Digest.rank node.1 ≤ n)
    (hnext : ∀ node ∈ t.next, Digest.rank node.1 < n)
    (hrun : nodes.foldlM (diffNode store) t = .ok t') :
    LevelInv store D [] t' ∧ (∀ x ∈ t.sent, x ∈ t'.sent) ∧
      (∀ x ∈ t.out, x ∈ t'.out) ∧
      ∀ node ∈ t'.next, Digest.rank node.1 < n := by
  induction nodes generalizing t with
  | nil =>
      obtain rfl := Except.ok.inj hrun
      exact ⟨h, fun _ hx => hx, fun _ hx => hx, hnext⟩
  | cons node nodes ih =>
      rw [List.foldlM_cons] at hrun
      obtain ⟨t₁, hnode, hrest⟩ := Except.bind_eq_ok_iff.mp hrun
      obtain ⟨hinv, hsent, hout, hnodes⟩ := levelInv_diffNode hD h hnode
      have hnext₁ : ∀ m ∈ t₁.next, Digest.rank m.1 < n := by
        intro m hm
        rcases hnodes m hm with hm | hlt
        · exact hnext m hm
        · exact lt_of_lt_of_le hlt (hrank node List.mem_cons_self)
      obtain ⟨hinv', hsent', hout', hnext'⟩ := ih hinv
        (fun m hm => hrank m (List.mem_cons_of_mem _ hm)) hnext₁ hrest
      exact ⟨hinv', fun x hx => hsent' x (hsent x hx),
        fun x hx => hout' x (hout x hx), hnext'⟩

theorem levelInv_diffLevels (hD : Backed store D) (n : ℕ)
    (h : LevelInv store D [] t)
    (hrank : ∀ node ∈ t.next, Digest.rank node.1 < n)
    (hrun : diffLevels store n t = .ok t') :
    LevelInv store D [] t' ∧ t'.next = [] ∧ (∀ x ∈ t.sent, x ∈ t'.sent) ∧
      ∀ x ∈ t.out, x ∈ t'.out := by
  induction n generalizing t with
  | zero =>
      obtain rfl : t = t' := Except.ok.inj hrun
      refine ⟨h, ?_, fun _ hx => hx, fun _ hx => hx⟩
      rw [List.eq_nil_iff_forall_not_mem]
      intro node hnode
      exact absurd (hrank node hnode) (by omega)
  | succ n ih =>
      rw [diffLevels] at hrun
      split at hrun
      next hempty =>
        obtain rfl := Except.ok.inj hrun
        exact ⟨h, List.isEmpty_iff.mp hempty, fun _ hx => hx, fun _ hx => hx⟩
      next =>
        obtain ⟨t₁, hlevel, hrest⟩ := Except.bind_eq_ok_iff.mp hrun
        have hlevelInv : LevelInv store D t.next { t with next := [] } := by
          refine ⟨?_, ?_⟩
          · rintro m (hm | hm) b hb
            · exact h.bases m (Or.inr hm) b hb
            · simp at hm
          · intro x hx
            rcases h.sent x hx with hDx | hdone | ⟨m, hm, hmx⟩
            · exact Or.inl hDx
            · exact Or.inr (Or.inl hdone)
            · exact Or.inr (Or.inr ⟨m, Or.inl (hm.resolve_left (by simp)), hmx⟩)
        obtain ⟨hinv, hsent, hout, hnext⟩ := levelInv_foldlM hD hlevelInv
          (fun m hm => Nat.lt_succ_iff.mp (hrank m hm)) (by simp) hlevel
        obtain ⟨hinv', hnil, hsent', hout'⟩ := ih hinv hnext hrest
        exact ⟨hinv', hnil, fun x hx => hsent' x (hsent x hx),
          fun x hx => hout' x (hout x hx)⟩

theorem diffTree_spec (hD : Backed store D) {root : Id}
    {bases sent out sent' out' : List Id} {found : Bool}
    (hbases : ∀ b ∈ bases, D b ∨ store.get b = none)
    (hsent : ∀ x ∈ sent, D x)
    (hrun : diffTree store root bases sent out = .ok (found, sent', out')) :
    (∀ x ∈ sent', D x ∨ (x ∈ out' ∧ ∃ o, store.get x = some o ∧
        ∀ c ∈ o.childIds, D c ∨ c ∈ sent')) ∧
      (∀ x ∈ sent, x ∈ sent') ∧ (∀ x ∈ out, x ∈ out') ∧
      (D root ∨ root ∈ sent' ∨ store.get root = none) ∧
      (found = false → store.get root = none) := by
  simp only [diffTree] at hrun
  split at hrun
  next hknown =>
    simp only [Except.ok.injEq, Prod.mk.injEq] at hrun
    obtain ⟨rfl, rfl, rfl⟩ := hrun
    refine ⟨fun x hx => Or.inl (hsent x hx), fun _ hx => hx, fun _ hx => hx,
      ?_, by simp⟩
    rcases hknown with hroot | hroot
    · exact Or.inl (hsent root hroot)
    · exact (hbases root hroot).imp_right Or.inr
  next =>
    split at hrun
    next hgone =>
      simp only [Except.ok.injEq, Prod.mk.injEq] at hrun
      obtain ⟨rfl, rfl, rfl⟩ := hrun
      rw [Option.isNone_iff_eq_none] at hgone
      exact ⟨fun x hx => Or.inl (hsent x hx), fun _ hx => hx, fun _ hx => hx,
        Or.inr (Or.inr hgone), fun _ => hgone⟩
    next =>
      obtain ⟨t, hlevels, hrun⟩ := Except.bind_eq_ok_iff.mp hrun
      simp only [Except.ok.injEq, Prod.mk.injEq] at hrun
      obtain ⟨rfl, rfl, rfl⟩ := hrun
      have hstart : LevelInv store D [] ⟨root :: sent, out, [(root, bases)]⟩ := by
        refine ⟨?_, ?_⟩
        · rintro n (hn | hn) b hb
          · simp at hn
          · obtain rfl := List.mem_singleton.mp hn
            exact hbases b hb
        · intro x hx
          rcases List.mem_cons.mp hx with rfl | hx
          · exact Or.inr (Or.inr ⟨_, Or.inr List.mem_cons_self, rfl⟩)
          · exact Or.inl (hsent x hx)
      have hrank : ∀ node ∈ [(root, bases)],
          Digest.rank node.1 < Digest.rank root + 1 := by
        intro node hnode
        obtain rfl := List.mem_singleton.mp hnode
        exact Nat.lt_succ_self _
      obtain ⟨hinv, hnil, hmore, hout⟩ :=
        levelInv_diffLevels hD _ hstart hrank hlevels
      refine ⟨?_, fun x hx => hmore x (List.mem_cons_of_mem _ hx), hout,
        Or.inr (Or.inl (hmore root List.mem_cons_self)), by simp⟩
      intro x hx
      rcases hinv.sent x hx with hDx | hdone | ⟨n, hn, -⟩
      · exact Or.inl hDx
      · exact Or.inr hdone
      · rw [hnil] at hn
        simp at hn

/-! ## A whole tree does not fail -/

theorem exists_diffNodes (hnodes : ∀ n ∈ nodes, store.Complete n.1)
    (hnext : ∀ n ∈ t.next, store.Complete n.1) :
    ∃ t', nodes.foldlM (diffNode store) t = .ok t' ∧
      ∀ n ∈ t'.next, store.Complete n.1 := by
  induction nodes generalizing t with
  | nil => exact ⟨t, rfl, hnext⟩
  | cons node nodes ih =>
      have hnode := hnodes node List.mem_cons_self
      obtain ⟨o, ho⟩ := hnode.exists_get
      have hs := foldl_diffChild (node.2.filterMap store.get) (slots o)
        { t with out := t.out ++ [node.1] }
      rw [map_snd_slots] at hs
      have hstep : diffNode store t node =
          .ok ((slots o).foldl (diffChild (node.2.filterMap store.get))
            { t with out := t.out ++ [node.1] }) := by
        simp only [diffNode, ho]
      rw [List.foldlM_cons, hstep, Except.ok_bind]
      refine ih (fun n hn => hnodes n (List.mem_cons_of_mem _ hn)) ?_
      intro n hn
      rcases hs.nodes n hn with hold | ⟨hc, -⟩
      · exact hnext n hold
      · exact hnode.child ho hc

theorem exists_diffLevels (n : ℕ) {t : TreeWalk Id}
    (hnext : ∀ node ∈ t.next, store.Complete node.1) :
    ∃ t', diffLevels store n t = .ok t' := by
  induction n generalizing t with
  | zero => exact ⟨t, rfl⟩
  | succ n ih =>
      rw [diffLevels]
      split
      · exact ⟨t, rfl⟩
      · obtain ⟨t₁, hlevel, hnext₁⟩ :=
          exists_diffNodes (t := { t with next := [] }) hnext (by simp)
        rw [hlevel, Except.ok_bind]
        exact ih hnext₁

theorem exists_diffTree {root : Id} (bases sent out : List Id)
    (h : store.Complete root ∨ store.get root = none) :
    ∃ r, diffTree store root bases sent out = .ok r := by
  simp only [diffTree]
  split
  · exact ⟨_, rfl⟩
  · split
    · exact ⟨_, rfl⟩
    next hstored =>
      have hwhole : store.Complete root := by
        refine h.resolve_right ?_
        intro hnone
        simp [hnone] at hstored
      obtain ⟨t, ht⟩ := @exists_diffLevels Id _ store (Digest.rank root + 1)
        ⟨root :: sent, out, [(root, bases)]⟩ (by
          intro node hnode
          obtain rfl := List.mem_singleton.mp hnode
          exact hwhole)
      exact ⟨_, by rw [ht]; rfl⟩

end Levels

end Missing

end AgentStateGraph
