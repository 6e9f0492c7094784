import AgentStateGraph.Lib.Levels
import AgentStateGraph.Sync.MissingSet
import AgentStateGraph.Sync.Transfer

/-!
# Fetching to a depth

A fetch of a given depth sends the commits at that depth without their
parents.  A commit that lies at several depths counts at the least, so a
boundary commit of one line can have all its parents inside another; the store
that received it then keeps no mark.
-/

namespace AgentStateGraph

open Control Missing Worklist

variable {Id : Type} [Digest Id]

namespace Shallow

/-- As many rounds as there are commits to queue. -/
def rounds (commits : CommitStore Id) (heads : List Id) : ℕ :=
  (commits.walkVertices heads).card

/-- The commits at `depth` along each line from `heads`.  A commit that the
store lacks has no parents to go on to. -/
def depthBoundary (commits : CommitStore Id) (heads : List Id) (depth : ℕ) :
    Except (RepoError Id) (List Id) :=
  if depth = 0 then
    .error (.invalidOperation
      "a fetch's depth is at least 1, the head itself")
  else
    .ok (sortedIds (HeapLoop.run (Levels.round commits.parents depth)
      (rounds commits heads) (Levels.start heads)).edge)

/-- The targets of the marks. -/
def shallowCommits (store : Storage Id) : List Id :=
  (store.refsIn defaultNs SHALLOW_PREFIX).map Prod.snd

theorem mem_sortedIds_iff {l : List Id} {x : Id} : x ∈ sortedIds l ↔ x ∈ l := by
  rw [sortedIds, Std.ExtTreeSet.mem_toList, Std.ExtTreeSet.mem_ofList,
    List.contains_iff_mem]

/-! ## What is sent -/

section Sent

variable {commits : CommitStore Id} {heads shallow : List Id} {depth : ℕ}

theorem exists_search (h : depthBoundary commits heads depth = .ok shallow) :
    ∃ s : Levels.Search Id, Levels.Inv commits.parents depth heads s ∧
      s.queue = [] ∧ ∀ x, x ∈ shallow ↔ x ∈ s.edge := by
  rw [depthBoundary] at h
  split at h
  next => contradiction
  next hdepth =>
    obtain rfl := Except.ok.inj h
    have hroots : ∀ x ∈ heads, x ∈ commits.walkVertices heads := by
      intro x hx
      simp only [CommitStore.walkVertices, Finset.mem_union, List.mem_toFinset]
      exact Or.inl (Or.inl hx)
    obtain ⟨hinv, hqueue⟩ := Levels.run_spec (Nat.one_le_iff_ne_zero.mpr hdepth)
      hroots (fun x y hy => CommitStore.parents_mem_walkVertices hy)
      (le_refl (commits.walkVertices heads).card)
    exact ⟨_, hinv, hqueue, fun x => mem_sortedIds_iff⟩

theorem fromHeads_iff (h : depthBoundary commits heads depth = .ok shallow)
    (x : Id) :
    FromHeads commits heads shallow x ↔
      ∃ k < depth, Levels.Steps commits.parents heads k x := by
  obtain ⟨s, hinv, hqueue, hedge⟩ := exists_search h
  have hcut : ∀ y, cutParents commits shallow y =
      if y ∈ s.edge then [] else commits.parents y := by
    intro y
    by_cases hy : y ∈ s.edge
    · rw [cutParents, if_pos ((hedge y).mpr hy), if_pos hy]
    · rw [cutParents, if_neg fun hmem => hy ((hedge y).mp hmem), if_neg hy]
  rw [← hinv.level_isSome_iff hqueue, ← hinv.reaches_iff hqueue hcut]
  exact Iff.rfl

end Sent

variable {store remote : Storage Id} {heads shallow : List Id} {depth : ℕ}
  {m : MissingSet Id}

/-- To a remote that has nothing, everything down to the boundary is sent. -/
theorem mem_commits_iff (h : missingSet store heads [] shallow = .ok m)
    (x : Id) :
    x ∈ m.commits ↔ (store.getCommit x).isSome = true ∧
      FromHeads store.commits heads shallow x := by
  obtain ⟨w, s, hover, hcommits, -⟩ := missingSet_eq_ok h
  obtain ⟨-, hmem, -⟩ :=
    @parentsFirst_spec Id _ store.commits _ (nodup_newCommits hover)
  rw [hcommits, hmem]
  constructor
  · intro hx
    obtain ⟨hstored, hfrom, -⟩ := hover.of_mem_newCommits hx
    exact ⟨hstored, hfrom⟩
  · rintro ⟨hstored, hfrom⟩
    refine hover.mem_newCommits hfrom hstored ?_
    rintro ⟨v, hv, -⟩
    simp at hv

/-- A commit that is sent without one of its parents. -/
def CutOff (store : Storage Id) (sent : List Id) (x : Id) : Prop :=
  x ∈ sent ∧ ∃ p ∈ store.commits.parents x, p ∉ sent

theorem mem_shallow_of_cutOff (h : missingSet store heads [] shallow = .ok m)
    {x : Id} (hx : CutOff store m.commits x) : x ∈ m.shallow := by
  obtain ⟨hxm, p, hp, hpm⟩ := hx
  obtain ⟨w, s, hover, hcommits, -, -, -, hshallow⟩ := missingSet_eq_ok h
  obtain ⟨-, hmem, -⟩ :=
    @parentsFirst_spec Id _ store.commits _ (nodup_newCommits hover)
  rw [hshallow, List.mem_filter, Bool.or_eq_true, decide_eq_true_eq,
    decide_eq_true_eq]
  refine ⟨hxm, ?_⟩
  by_cases hboundary : x ∈ shallow
  · exact Or.inl hboundary
  · apply Or.inr
    have hnew : x ∈ w.newCommits := by
      rw [← hmem, ← hcommits]
      exact hxm
    obtain ⟨-, hfrom, -, hwalked⟩ := hover.of_mem_newCommits hnew
    have hcut : p ∈ cutParents store.commits shallow x := by
      rw [cutParents, if_neg hboundary]
      exact hp
    refine (hover.closed.lacksParent x).mpr ⟨hwalked, p, hcut, ?_⟩
    by_contra hstored
    apply hpm
    rw [mem_commits_iff h]
    refine ⟨Option.isSome_iff_ne_none.mpr hstored, ?_⟩
    obtain ⟨r, hr, hreach⟩ := hfrom
    exact ⟨r, hr, hreach.trans (Reaches.single hcut)⟩

/-! ## The marks -/

section Marks

variable {s : Storage Id}

theorem hasAllParents_congr {t : Storage Id}
    (h : ∀ id, t.getCommit id = s.getCommit id) (x : Id) :
    t.hasAllParents x = s.hasAllParents x := by
  simp only [Storage.hasAllParents, h]

/-- What marking some commits does to the refs. -/
structure Marked (ids : List Id) (s t : Storage Id) : Prop where
  getCommit : ∀ id, t.getCommit id = s.getCommit id
  origin : ∀ name target, t.refAt defaultNs name = some target →
    s.refAt defaultNs name = some target ∨
      name = shallowRef target ∧ target ∈ ids ∧ s.hasAllParents target = false
  kept : ∀ name, (s.refAt defaultNs name).isSome = true →
    (t.refAt defaultNs name).isSome = true
  marked : ∀ x ∈ ids, s.hasAllParents x = false →
    (t.refAt defaultNs (shallowRef x)).isSome = true

theorem Marked.refl (s : Storage Id) : Marked [] s s :=
  ⟨fun _ => rfl, fun _ _ h => Or.inl h, fun _ h => h, by simp⟩

theorem marked_markShallow (s : Storage Id) (x : Id) :
    Marked [x] s (s.markShallow x) := by
  rw [Storage.markShallow]
  split
  next hall =>
    refine ⟨fun _ => rfl, fun _ _ h => Or.inl h, fun _ h => h, ?_⟩
    intro y hy hcut
    rw [List.mem_singleton.mp hy, hall] at hcut
    contradiction
  next hall =>
    rw [Bool.not_eq_true] at hall
    refine ⟨fun _ => rfl, ?_, ?_, ?_⟩
    · intro name target h
      rw [Storage.refAt_putRef] at h
      split at h
      next heq =>
        obtain rfl := Option.some.inj h
        exact Or.inr ⟨heq.2.symm, List.mem_singleton_self x, hall⟩
      next => exact Or.inl h
    · intro name h
      rw [Storage.refAt_putRef]
      split
      next => rfl
      next => exact h
    · intro y hy _
      rw [List.mem_singleton.mp hy, Storage.refAt_putRef_self]
      rfl

theorem Marked.trans {ids ids' : List Id} {t u : Storage Id}
    (hst : Marked ids s t) (htu : Marked ids' t u) :
    Marked (ids ++ ids') s u := by
  refine ⟨fun id => (htu.getCommit id).trans (hst.getCommit id), ?_, ?_, ?_⟩
  · intro name target h
    rcases htu.origin name target h with h | ⟨hname, hmem, hcut⟩
    · rcases hst.origin name target h with h | ⟨hname, hmem, hcut⟩
      · exact Or.inl h
      · exact Or.inr ⟨hname, List.mem_append_left _ hmem, hcut⟩
    · rw [hasAllParents_congr hst.getCommit] at hcut
      exact Or.inr ⟨hname, List.mem_append_right _ hmem, hcut⟩
  · intro name h
    exact htu.kept name (hst.kept name h)
  · intro x hx hcut
    rcases List.mem_append.mp hx with hx | hx
    · exact htu.kept _ (hst.marked x hx hcut)
    · apply htu.marked x hx
      rw [hasAllParents_congr hst.getCommit, hcut]

theorem marked_foldl (ids : List Id) (s : Storage Id) :
    Marked ids s (ids.foldl Storage.markShallow s) := by
  induction ids generalizing s with
  | nil => exact Marked.refl s
  | cons x ids ih => exact (marked_markShallow s x).trans (ih _)

theorem marked_recordShallow (ids : List Id)
    (hnone : s.refsIn defaultNs SHALLOW_PREFIX = []) :
    Marked ids s (s.recordShallow ids) := by
  have hmarked := marked_foldl ids s
  have hkept : ∀ mark ∈ (ids.foldl Storage.markShallow s).refsIn defaultNs
      SHALLOW_PREFIX, ∀ t : Storage Id,
      (∀ id, t.getCommit id = s.getCommit id) → t.unmarkShallow mark = t := by
    rintro ⟨name, target⟩ hmem t ht
    obtain ⟨href, hpre⟩ := Storage.mem_refsIn_iff _ |>.mp hmem
    have hcut : s.hasAllParents target = false := by
      rcases hmarked.origin name target href with hold | ⟨-, -, hcut⟩
      · have := (Storage.mem_refsIn_iff s).mpr ⟨hold, hpre⟩
        rw [hnone] at this
        simp at this
      · exact hcut
    rw [Storage.unmarkShallow, hasAllParents_congr ht, hcut]
    rfl
  have hfold : ∀ marks : List (String × Id),
      (∀ mark ∈ marks, mark ∈ (ids.foldl Storage.markShallow s).refsIn
        defaultNs SHALLOW_PREFIX) →
      marks.foldl Storage.unmarkShallow (ids.foldl Storage.markShallow s) =
        ids.foldl Storage.markShallow s := by
    intro marks
    induction marks with
    | nil => exact fun _ => rfl
    | cons mark marks ih =>
        intro hmarks
        rw [List.foldl_cons, hkept mark (hmarks mark (by simp)) _
          hmarked.getCommit]
        exact ih fun e he => hmarks e (List.mem_cons_of_mem _ he)
  have hrecord : s.recordShallow ids = ids.foldl Storage.markShallow s :=
    hfold _ fun _ h => h
  rw [hrecord]
  exact hmarked

end Marks

theorem getCommit_deliver (hempty : ∀ x, remote.getCommit x = none)
    (h : missingSet store heads [] shallow = .ok m) (x : Id) :
    (deliver store remote m).getCommit x =
      if x ∈ m.commits then store.getCommit x else none := by
  split
  next hx =>
    obtain ⟨c, hc⟩ := Option.isSome_iff_exists.mp ((mem_commits_iff h x).mp hx).1
    rw [hc, ← CommitStore.id_eq_of_get hc]
    exact AddressedMap.get_putAll_of_mem Commit.id_injective _
      (List.mem_filterMap.mpr ⟨x, hx, hc⟩)
  next hx =>
    cases hget : (deliver store remote m).getCommit x with
    | none => rfl
    | some c =>
        rcases AddressedMap.get_putAll hget with hold | hnew
        · have := hempty x
          rw [Storage.getCommit, hold] at this
          contradiction
        · obtain ⟨y, hy, hyc⟩ := List.mem_filterMap.mp hnew
          have hxy : x = y := (CommitStore.id_eq_of_get hget).symm.trans
            (CommitStore.id_eq_of_get hyc)
          exact absurd (hxy ▸ hy) hx

theorem hasAllParents_deliver (hempty : ∀ x, remote.getCommit x = none)
    (h : missingSet store heads [] shallow = .ok m) {x : Id}
    (hx : x ∈ m.commits) :
    (deliver store remote m).hasAllParents x = false ↔
      CutOff store m.commits x := by
  obtain ⟨c, hc⟩ := Option.isSome_iff_exists.mp ((mem_commits_iff h x).mp hx).1
  have hget := getCommit_deliver hempty h
  have hparents : store.commits.parents x = c.parents :=
    CommitStore.parents_of_get hc
  rw [Storage.hasAllParents, hget, if_pos hx, hc]
  dsimp only
  rw [List.all_eq_false, CutOff, hparents, and_iff_right hx]
  refine exists_congr fun p => and_congr_right fun _ => ?_
  rw [hget]
  constructor
  · intro hnone hp
    obtain ⟨hstored, -⟩ := (mem_commits_iff h p).mp hp
    rw [if_pos hp] at hnone
    exact hnone hstored
  · intro hp
    rw [if_neg hp]
    exact Bool.false_ne_true

theorem mem_marks (hempty : ∀ x, remote.getCommit x = none)
    (hunmarked : remote.refsIn defaultNs SHALLOW_PREFIX = [])
    (h : missingSet store heads [] shallow = .ok m) :
    (∀ name target, (name, target) ∈ ((deliver store remote
        m).recordShallow m.shallow).refsIn defaultNs SHALLOW_PREFIX →
      name = shallowRef target ∧ CutOff store m.commits target) ∧
      ∀ x, CutOff store m.commits x → ∃ target,
        (shallowRef x, target) ∈ ((deliver store remote
          m).recordShallow m.shallow).refsIn defaultNs SHALLOW_PREFIX := by
  have hmarked := marked_recordShallow (s := deliver store remote m) m.shallow
    hunmarked
  refine ⟨?_, ?_⟩
  · intro name target hmem
    obtain ⟨href, hpre⟩ := (Storage.mem_refsIn_iff _).mp hmem
    rcases hmarked.origin name target href with hold | ⟨hname, hlisted, hcut⟩
    · have hmem : (name, target) ∈ remote.refsIn defaultNs SHALLOW_PREFIX :=
        (Storage.mem_refsIn_iff remote).mpr ⟨hold, hpre⟩
      rw [hunmarked] at hmem
      simp at hmem
    · obtain ⟨w, s, -, -, -, -, -, hshallow⟩ := missingSet_eq_ok h
      rw [hshallow] at hlisted
      have hsent := (List.mem_filter.mp hlisted).1
      exact ⟨hname, (hasAllParents_deliver hempty h hsent).mp hcut⟩
  · intro x hx
    have hcut := (hasAllParents_deliver hempty h hx.1).mpr hx
    obtain ⟨target, htarget⟩ := Option.isSome_iff_exists.mp
      (hmarked.marked x (mem_shallow_of_cutOff h hx) hcut)
    refine ⟨target, (Storage.mem_refsIn_iff _).mpr ⟨htarget, ?_⟩⟩
    rw [shallowRef]
    simp [startsWith]

/-- The commits sent to an empty store by a fetch of a depth are those with a
line of fewer parents to them from a head; the store ends up with a mark for
each that came without one of its parents, and with no other. -/
theorem fetch_depth_exact (hempty : ∀ x, remote.getCommit x = none)
    (hunmarked : remote.refsIn defaultNs SHALLOW_PREFIX = [])
    (hboundary : depthBoundary store.commits heads depth = .ok shallow)
    (h : missingSet store heads [] shallow = .ok m) :
    (∀ x, x ∈ m.commits ↔ (store.getCommit x).isSome = true ∧
        ∃ k < depth, Levels.Steps store.commits.parents heads k x) ∧
      (∀ name, (∃ target, (name, target) ∈ ((deliver store remote
          m).recordShallow m.shallow).refsIn defaultNs SHALLOW_PREFIX) ↔
        ∃ x, CutOff store m.commits x ∧ name = shallowRef x) ∧
      (Set.InjOn (Digest.toHex : Id → String) { x | x ∈ m.commits } →
        ∀ x, x ∈ shallowCommits ((deliver store remote m).recordShallow
          m.shallow) ↔ CutOff store m.commits x) := by
  obtain ⟨hmark, hcut⟩ := mem_marks hempty hunmarked h
  refine ⟨?_, ?_, ?_⟩
  · intro x
    rw [mem_commits_iff h, fromHeads_iff hboundary]
  · intro name
    constructor
    · rintro ⟨target, hmem⟩
      obtain ⟨hname, htarget⟩ := hmark name target hmem
      exact ⟨target, htarget, hname⟩
    · rintro ⟨x, hx, rfl⟩
      exact hcut x hx
  · intro hhex x
    rw [shallowCommits, List.mem_map]
    constructor
    · rintro ⟨⟨name, target⟩, hmem, rfl⟩
      exact (hmark name target hmem).2
    · intro hx
      obtain ⟨target, hmem⟩ := hcut x hx
      obtain ⟨hname, htarget⟩ := hmark _ _ hmem
      have heq : Digest.toHex x = Digest.toHex target := by
        rw [shallowRef, shallowRef] at hname
        exact String.append_right_inj _ |>.mp hname
      exact ⟨_, hmem, (hhex hx.1 htarget.1 heq).symm⟩

namespace ThreeCommits

open ContentKey

def first : Commit ContentKey := commitOf Object.emptyMap [] 0

def second : Commit ContentKey := commitOf Object.emptyMap [first] 1

def third : Commit ContentKey := commitOf Object.emptyMap [second] 2

def line : Storage ContentKey :=
  { Storage.new with
    objects := AddressedMap.empty.put Object.emptyMap
    commits := AddressedMap.empty.putAll [first, second, third] }

/-- What a fetch of depth 2 sends. -/
def lastTwo : MissingSet ContentKey where
  commits := [second.id, third.id]
  objects := [(Object.emptyMap : Object ContentKey).id]
  shallow := [second.id]
  pruned := []

end ThreeCommits

open ThreeCommits in
set_option maxRecDepth 16384 in
/-- The second commit is marked. -/
theorem fetch_depth_exact_two : ∃ target, (shallowRef second.id, target) ∈
    ((deliver line Storage.new lastTwo).recordShallow
      lastTwo.shallow).refsIn defaultNs SHALLOW_PREFIX := by
  have hempty : ∀ x, (Storage.new : Storage ContentKey).getCommit x = none := by
    intro x
    simp [Storage.getCommit, Storage.new]
  have hunmarked : (Storage.new : Storage ContentKey).refsIn defaultNs
      SHALLOW_PREFIX = [] := by
    rfl
  have hboundary : depthBoundary line.commits [third.id] 2 =
      .ok [second.id] := by
    decide
  have hmissing : missingSet line [third.id] [] [second.id] = .ok lastTwo := by
    decide
  have hcut : CutOff line lastTwo.commits second.id :=
    ⟨by decide, first.id, by decide, by decide⟩
  obtain ⟨-, hmarks, -⟩ :=
    fetch_depth_exact hempty hunmarked hboundary hmissing
  exact (hmarks _).mpr ⟨second.id, hcut, rfl⟩

end Shallow

end AgentStateGraph
