import AgentStateGraph.Policy.Store

/-!
# The versions of a policy

Any number of policy stores propose, ratify, sign and supersede at one path of
one ref.  Whatever the interleaving, the versions are numbered from one, each
names the one below it, and a version that was superseded stays as it was in
the state that the superseding commit was built on.
-/

namespace AgentStateGraph

variable {Id : Type} [Digest Id]

namespace Policies

open Storage

/-! ## Chains of versions -/

def handleOf (normalized : String) (version : ℕ) : String :=
  normalized ++ "@" ++ Nat.repr version

/-- A policy as version number `i + 1` of its path. -/
structure IsVersion (normalized : String) (i : ℕ) (p : Policy) : Prop where
  path : p.path = normalized
  version : p.version = i + 1
  supersedes : p.supersedes =
    if i = 0 then none else some (handleOf normalized i)
  stored : p.stored = p

theorem IsVersion.handle {normalized : String} {i : ℕ} {p : Policy}
    (h : IsVersion normalized i p) : p.handle = handleOf normalized (i + 1) := by
  rw [Policy.handle, h.path, h.version, handleOf]

theorem handleOf_injective (normalized : String) :
    Function.Injective (handleOf normalized) := by
  intro v w h
  exact repr_injective ((String.append_right_inj _).mp h)

variable (codec : PolicyCodec)

/-- The document at a path is this policy. -/
def KeepsPolicy (objects : ObjectStore Id) (root : Id)
    (path : List PathComponent) (p : Policy) : Prop :=
  ∃ value, HoldsAt objects root path value ∧ value.isCanonical = true ∧
    codec.fromValue value = .ok p

variable {codec}

section

variable {root : Id} {path : List PathComponent} {p : Policy}

theorem KeepsPolicy.mono {s t : ObjectStore Id} (hle : s ≤ t)
    (h : KeepsPolicy codec s root path p) :
    KeepsPolicy codec t root path p := by
  obtain ⟨value, hholds, hrest⟩ := h
  exact ⟨value, hholds.mono hle, hrest⟩

theorem KeepsPolicy.of_setsAt {s t : ObjectStore Id} {newRoot : Id}
    {q : List PathComponent} {value : Json} (h : KeepsPolicy codec s root q p)
    (hle : s ≤ t) (hset : SetsAt t root newRoot path value)
    (hq : PathsDisjoint path q) : KeepsPolicy codec t newRoot q p := by
  obtain ⟨other, hholds, hrest⟩ := h
  exact ⟨other, hset.holdsAt_of_disjoint hle hq hholds, hrest⟩

theorem keepsPolicy_of_setsAt {objects : ObjectStore Id} {newRoot : Id}
    {value : Json} (hset : SetsAt objects root newRoot path value)
    (hvalue : codec.toValue p = .ok value) :
    KeepsPolicy codec objects newRoot path p.stored :=
  ⟨value, hset.holds, codec.canonical p value hvalue,
    codec.fromValue_toValue p value hvalue⟩

end

variable (codec) (pre normalized : String)

/-- The versions that a state has: the last one in the active place, the
others in their places in the history. -/
structure ChainAt (objects : ObjectStore Id) (root : Id)
    (chain : List Policy) : Prop where
  absent : chain = [] → AbsentAt objects root (activeAt pre normalized)
  current : ∀ p, chain.getLast? = some p →
    KeepsPolicy codec objects root (activeAt pre normalized) p
  older : ∀ i p, i + 1 < chain.length → chain[i]? = some p →
    KeepsPolicy codec objects root (historicalAt pre normalized (i + 1)) p

variable {codec pre normalized}

section

variable {s t : ObjectStore Id} {root : Id} {chain : List Policy}

theorem ChainAt.mono (hle : s ≤ t)
    (h : ChainAt codec pre normalized s root chain) :
    ChainAt codec pre normalized t root chain where
  absent := fun hnil => (h.absent hnil).mono hle
  current := fun p hp => (h.current p hp).mono hle
  older := fun i p hi hp => (h.older i p hi hp).mono hle

theorem ChainAt.setActive {newRoot : Id} {value : Json} {p : Policy}
    (h : ChainAt codec pre normalized s root chain) (hle : s ≤ t)
    (hset : SetsAt t root newRoot (activeAt pre normalized) value)
    (hvalue : codec.toValue p = .ok value) :
    ChainAt codec pre normalized t newRoot (chain.dropLast ++ [p.stored]) where
  absent := by simp
  current := by
    intro q hq
    rw [List.getLast?_concat, Option.some.injEq] at hq
    rw [← hq]
    exact keepsPolicy_of_setsAt hset hvalue
  older := by
    intro i q hi hq
    simp only [List.length_append, List.length_dropLast,
      List.length_singleton] at hi
    have hlt : i + 1 < chain.length := by omega
    rw [List.getElem?_append_left (by rw [List.length_dropLast]; omega),
      List.getElem?_dropLast, if_pos (by omega)] at hq
    exact (h.older i q hlt hq).of_setsAt hle hset
      (activeAt_disjoint_historicalAt _ _ _)

theorem ChainAt.supersede {u : ObjectStore Id} {mid newRoot : Id}
    {oldValue value : Json} {old p : Policy}
    (h : ChainAt codec pre normalized s root chain)
    (hlast : chain.getLast? = some old) (hst : s ≤ t) (htu : t ≤ u)
    (hhist : SetsAt t root mid (historicalAt pre normalized chain.length)
      oldValue) (hset : SetsAt u mid newRoot (activeAt pre normalized) value)
    (hold : codec.toValue old = .ok oldValue) (hstored : old.stored = old)
    (hvalue : codec.toValue p = .ok value) :
    ChainAt codec pre normalized u newRoot (chain ++ [p.stored]) where
  absent := by simp
  current := by
    intro q hq
    rw [List.getLast?_concat, Option.some.injEq] at hq
    rw [← hq]
    exact keepsPolicy_of_setsAt hset hvalue
  older := by
    intro i q hi hq
    simp only [List.length_append, List.length_singleton] at hi
    rw [List.getElem?_append_left (by omega)] at hq
    have hmid : KeepsPolicy codec t mid
        (historicalAt pre normalized (i + 1)) q := by
      by_cases hnew : i + 1 = chain.length
      · have hq' : q = old := by
          rw [List.getLast?_eq_getElem?, ← hnew, Nat.add_sub_cancel] at hlast
          exact Option.some.inj (hq.symm.trans hlast)
        have hkept := keepsPolicy_of_setsAt hhist hold
        rw [hstored] at hkept
        rw [hnew, hq']
        exact hkept
      · exact (h.older i q (by omega) hq).of_setsAt hst hhist
          (historicalAt_disjoint (Ne.symm hnew))
    exact hmid.of_setsAt htu hset (activeAt_disjoint_historicalAt _ _ _)

end

/-! ## The state of the ref -/

variable (codec pre normalized) (ns refName : String)

/-- Where the ref stands, and the versions that its state has. -/
structure Standing (s : Storage Id) (head root : Id) (chain : List Policy) :
    Prop where
  namespace_ : ns ∈ s.namespaces
  refAt : s.refAt ns refName = some head
  rootOf : s.rootOf head = some root
  chainAt : ChainAt codec pre normalized s.objects root chain
  isVersion : ∀ i p, chain[i]? = some p → IsVersion normalized i p
  activePath : chain ≠ [] →
    (∃ p, StatePath.parse (active pre normalized) = .ok p) ∧
      pathIsSecret (active pre normalized) = false
  historicalPath : ∀ i, i + 1 < chain.length →
    ∃ p, StatePath.parse (historical pre normalized (i + 1)) = .ok p

variable {codec pre normalized ns refName}

theorem Standing.expands {s t : Storage Id} {head root : Id}
    {chain : List Policy}
    (h : Standing codec pre normalized ns refName s head root chain)
    (hexp : s.Expands t) (href : t.refAt ns refName = s.refAt ns refName) :
    Standing codec pre normalized ns refName t head root chain where
  namespace_ := by
    rw [hexp.namespaces]
    exact h.namespace_
  refAt := href.trans h.refAt
  rootOf := rootOf_of_le hexp.commits h.rootOf
  chainAt := h.chainAt.mono hexp.objects
  isVersion := h.isVersion
  activePath := h.activePath
  historicalPath := h.historicalPath

/-! ## Reads of the state -/

theorem pathIsSecret_historical {version : ℕ} {p q : StatePath}
    (hp : StatePath.parse (active pre normalized) = .ok p)
    (hq : StatePath.parse (historical pre normalized version) = .ok q)
    (h : pathIsSecret (active pre normalized) = false) :
    pathIsSecret (historical pre normalized version) = false := by
  have hroot : StatePath.parse META_SECRET_PREFIX =
      .ok ⟨["_meta", "_secret"].map PathComponent.key⟩ := by decide
  have hiff := fun {s : String} {r : StatePath} =>
    isAtOrUnder_iff_components_isPrefix (s := s) (p := r) hroot (by decide)
  rw [pathIsSecret, ← Bool.not_eq_true, hiff hp, components_active hp] at h
  rw [pathIsSecret, ← Bool.not_eq_true, hiff hq, components_historical hq]
  intro hpre
  apply h
  simp only [List.map_cons, List.map_nil, activeAt, historicalAt] at hpre ⊢
  generalize policyRoot pre normalized = base at hpre ⊢
  rcases base with _ | ⟨a, _ | ⟨b, rest⟩⟩
  · simp [HISTORY_KEY] at hpre
  · simp [HISTORY_KEY] at hpre
  · simpa using hpre

section Reads

variable {self : PolicyStore} {s : Storage Id} {head root : Id}
  {chain : List Policy}

variable {path : String} {p : Policy}

theorem decode_of_keepsPolicy {p : StatePath} {policy : Policy} {what : String}
    (hns : self.repo.activeNamespace ∈ s.namespaces)
    (href : s.refAt self.repo.activeNamespace refName = some head)
    (hroot : s.rootOf head = some root) (hp : StatePath.parse path = .ok p)
    (hsecret : pathIsSecret path = false)
    (h : KeepsPolicy codec s.objects root p.components policy) :
    decodePolicy codec what (self.repo.getJson s refName path) =
      .ok policy := by
  obtain ⟨value, hholds, hcanonical, hdecode⟩ := h
  have hread := self.repo.getJson_of_holdsAt hns href hroot hp hsecret hcanonical
    hholds
  simp [hread, decodePolicy, hdecode]

theorem Standing.loadActive
    (h : Standing codec self.pre normalized self.repo.activeNamespace refName s
      head root chain) (hlast : chain.getLast? = some p) :
    self.loadActive codec s refName normalized = .ok p := by
  have hne : chain ≠ [] := by
    rintro rfl
    simp at hlast
  obtain ⟨⟨path, hpath⟩, hsecret⟩ := h.activePath hne
  refine decode_of_keepsPolicy h.namespace_ h.refAt h.rootOf hpath hsecret ?_
  rw [components_active hpath]
  exact h.chainAt.current p hlast

theorem Standing.loadHistorical
    (h : Standing codec self.pre normalized self.repo.activeNamespace refName s
      head root chain) {i : ℕ} (hi : i + 1 < chain.length)
    (hp : chain[i]? = some p) :
    self.loadHistorical codec s refName normalized (i + 1) = .ok p := by
  have hne : chain ≠ [] := by
    rintro rfl
    simp at hi
  obtain ⟨⟨path, hpath⟩, hsecret⟩ := h.activePath hne
  obtain ⟨hist, hhist⟩ := h.historicalPath i hi
  refine decode_of_keepsPolicy h.namespace_ h.refAt h.rootOf hhist
    (pathIsSecret_historical hpath hhist hsecret) ?_
  rw [components_historical hhist]
  exact h.chainAt.older i p hi hp

theorem Standing.loadActive_nil
    (h : Standing codec self.pre normalized self.repo.activeNamespace refName s
      head root []) : self.loadActive codec s refName normalized ≠ .ok p := by
  intro hload
  unfold PolicyStore.loadActive decodePolicy at hload
  split at hload
  next => contradiction
  next value hread =>
    obtain ⟨-, -, root', path, hroot, hpath, x, -, hx, -⟩ :=
      self.repo.getJson_eq_ok h.refAt hread
    have hsame : root = root' := Option.some.inj (h.rootOf.symm.trans hroot)
    subst hsame
    have hnone := h.chainAt.absent rfl s.objects (le_refl _)
    rw [components_active hpath, hnone] at hx
    simp at hx

theorem Standing.getLast_of_loadActive
    (h : Standing codec self.pre normalized self.repo.activeNamespace refName s
      head root chain)
    (hload : self.loadActive codec s refName normalized = .ok p) :
    chain.getLast? = some p := by
  cases hlast : chain.getLast? with
  | none =>
      rw [List.getLast?_eq_none_iff] at hlast
      subst hlast
      exact absurd hload h.loadActive_nil
  | some q =>
      have hq := h.loadActive hlast
      rw [hload, Except.ok.injEq] at hq
      rw [hq]

theorem Standing.walkBack
    (h : Standing codec self.pre normalized self.repo.activeNamespace refName s
      head root chain) {v : ℕ} (hv : v + 1 ≤ chain.length)
    (versions : List Policy) :
    self.walkBack codec s refName normalized (v + 1) versions =
      .ok (versions ++ (chain.take v).reverse) := by
  induction v generalizing versions with
  | zero => simp [PolicyStore.walkBack]
  | succ v ih =>
      have hget : chain[v]? = some chain[v] := List.getElem?_eq_getElem _
      have hload := h.loadHistorical (i := v) (by omega) hget
      have hrest := ih (by omega) (versions ++ [chain[v]])
      have htake : chain.take (v + 1) = chain.take v ++ [chain[v]] := by
        rw [List.take_add_one, hget]
        rfl
      simp only [PolicyStore.walkBack, hload, Except.ok_bind, hrest, htake,
        List.reverse_append, List.append_assoc]
      rfl

theorem Standing.history
    (h : Standing codec self.pre normalized self.repo.activeNamespace refName s
      head root chain) (hne : chain ≠ [])
    (hpath : normalize path = (.ok normalized : Except (PolicyError Id) _)) :
    self.history codec s refName path = .ok chain := by
  obtain ⟨old, p, rfl⟩ := (List.eq_nil_or_concat' chain).resolve_left hne
  have hlast : (old ++ [p]).getLast? = some p := List.getLast?_concat
  have hversion := (h.isVersion old.length p (by simp)).version
  have hwalk := h.walkBack (v := old.length) (by simp) [p]
  simp only [PolicyStore.history, hpath, h.loadActive hlast, hversion, hwalk,
    Except.ok_bind]
  simp

/-- Every version is returned by its number. -/
theorem Standing.get
    (h : Standing codec self.pre normalized self.repo.activeNamespace refName s
      head root chain) {i : ℕ} (hp : chain[i]? = some p)
    (hpath : normalize path = (.ok normalized : Except (PolicyError Id) _)) :
    self.get codec s refName path (some (i + 1)) = .ok p := by
  have hlt : i < chain.length := (List.getElem?_eq_some_iff.mp hp).1
  have hlast : chain.getLast? = some chain[chain.length - 1] := by
    rw [List.getLast?_eq_getElem?, List.getElem?_eq_getElem]
  have hversion := (h.isVersion (chain.length - 1) _
    (List.getElem?_eq_getElem (by omega))).version
  simp only [PolicyStore.get, hpath, h.loadActive hlast, Except.ok_bind]
  by_cases hcur : i + 1 = chain.length
  · rw [if_pos (by omega)]
    have hi : chain.length - 1 = i := by omega
    simp only [hi]
    rw [List.getElem?_eq_getElem hlt, Option.some.injEq] at hp
    rw [hp]
  · rw [if_neg (by omega)]
    exact h.loadHistorical (by omega) hp

theorem Standing.chain_unique {chain' : List Policy} {head' root' : Id}
    (h : Standing codec self.pre normalized self.repo.activeNamespace refName s
      head root chain)
    (h' : Standing codec self.pre normalized self.repo.activeNamespace refName s
      head' root' chain') : chain = chain' := by
  cases hlast : chain.getLast? with
  | none =>
      rw [List.getLast?_eq_none_iff] at hlast
      subst hlast
      cases hlast' : chain'.getLast? with
      | none => exact (List.getLast?_eq_none_iff.mp hlast').symm
      | some p => exact absurd (h'.loadActive hlast') h.loadActive_nil
  | some p =>
      have hlast' := h'.getLast_of_loadActive (h.loadActive hlast)
      obtain ⟨old, rfl⟩ := List.getLast?_eq_some_iff.mp hlast
      obtain ⟨old', rfl⟩ := List.getLast?_eq_some_iff.mp hlast'
      have hversion := (h.isVersion old.length p (by simp)).version
      have hversion' := (h'.isVersion old'.length p (by simp)).version
      have hlength : old'.length = old.length := by omega
      have hwalk := h.walkBack (v := old.length) (by simp) []
      have hwalk' := h'.walkBack (v := old'.length) (by simp) []
      rw [hlength, hwalk, Except.ok.injEq] at hwalk'
      have htake : (old' ++ [p]).take old.length = old' := by
        rw [← hlength]
        exact List.take_left
      rw [htake] at hwalk'
      simp only [List.nil_append, List.reverse_inj, List.take_left] at hwalk'
      rw [hwalk']

end Reads

/-! ## What the stores keep -/

open Program PolicyStore

variable {W : Type}

section Contract

variable (codec pre normalized ns refName)

/-- A version stands in the active place. -/
def Proposed (s : Storage Id) : Prop :=
  ∃ head root p, s.refAt ns refName = some head ∧ s.rootOf head = some root ∧
    KeepsPolicy codec s.objects root (activeAt pre normalized) p

/-- Each supersede that landed made the next version, of the one that its
parent has in the active place. -/
structure Recorded (s : Traced Id (Supersession W Id)) (chain : List Policy) :
    Prop where
  length : s.trace.length = chain.length - 1
  entry : ∀ i l, s.trace[i]? = some l → l.handle = handleOf normalized (i + 2) ∧
    ∃ root p, s.store.rootOf l.parent = some root ∧ chain[i]? = some p ∧
      KeepsPolicy codec s.store.objects root (activeAt pre normalized) p

/-- What holds between the steps of the stores, and what a step may do. -/
def contract : Contract (Traced Id (Supersession W Id)) where
  invariant s := ∃ head root chain,
    Standing codec pre normalized ns refName s.store head root chain ∧
      Recorded codec pre normalized s chain
  guarantee s t := Advances ns refName s.store t.store ∧ s.trace <+: t.trace ∧
    (Proposed codec pre normalized ns refName s.store →
      Proposed codec pre normalized ns refName t.store)
  refl _ := ⟨Advances.refl _, List.prefix_rfl, id⟩
  trans hst htu := ⟨hst.1.trans htu.1, hst.2.1.trans htu.2.1, htu.2.2 ∘ hst.2.2⟩

end Contract

theorem Recorded.expands {s t : Traced Id (Supersession W Id)}
    {chain : List Policy} (h : Recorded codec pre normalized s chain)
    (hexp : s.store.Expands t.store) (htrace : t.trace = s.trace) :
    Recorded codec pre normalized t chain where
  length := by
    rw [htrace]
    exact h.length
  entry := by
    intro i l hl
    rw [htrace] at hl
    obtain ⟨hhandle, root, p, hroot, hp, hkeeps⟩ := h.entry i l hl
    exact ⟨hhandle, root, p, rootOf_of_le hexp.commits hroot, hp,
      hkeeps.mono hexp.objects⟩

theorem Standing.proposed {s : Storage Id} {head root : Id}
    {chain : List Policy}
    (h : Standing codec pre normalized ns refName s head root chain)
    (hne : chain ≠ []) : Proposed codec pre normalized ns refName s := by
  obtain ⟨p, hp⟩ := Option.ne_none_iff_exists'.mp
    (fun hnone => hne (List.getLast?_eq_none_iff.mp hnone))
  exact ⟨head, root, p, h.refAt, h.rootOf, h.chainAt.current p hp⟩

theorem Standing.ne_nil_of_proposed {s : Storage Id} {head root : Id}
    {chain : List Policy}
    (h : Standing codec pre normalized ns refName s head root chain)
    (hprop : Proposed codec pre normalized ns refName s) : chain ≠ [] := by
  rintro rfl
  obtain ⟨head', root', p, href, hroot, value, hholds, -⟩ := hprop
  have hhead : head = head' := Option.some.inj (h.refAt.symm.trans href)
  subst hhead
  have hsame : root = root' := Option.some.inj (h.rootOf.symm.trans hroot)
  subst hsame
  exact hholds.not_absentAt (h.chainAt.absent rfl)

section Steps

variable {s t : Traced Id (Supersession W Id)} {head root newRoot : Id}
  {chain : List Policy}

theorem steps_of_refAt_eq
    (hinv : (contract codec pre normalized ns refName).invariant s)
    (hexp : s.store.Expands t.store)
    (href : t.store.refAt ns refName = s.store.refAt ns refName)
    (htrace : t.trace = s.trace) :
    (contract codec pre normalized ns refName).invariant t ∧
      (contract codec pre normalized ns refName).guarantee s t := by
  obtain ⟨head, root, chain, hstanding, hrec⟩ := hinv
  have hstanding' := hstanding.expands hexp href
  refine ⟨⟨head, root, chain, hstanding', hrec.expands hexp htrace⟩,
    Advances.of_refAt_eq hexp href, htrace ▸ List.prefix_rfl, ?_⟩
  intro hprop
  exact hstanding'.proposed (hstanding.ne_nil_of_proposed hprop)

theorem steps_of_landsOn (chain' : List Policy)
    (hlands : s.store.LandsOn ns refName t.store head newRoot)
    (htrace : s.trace <+: t.trace) (hne : chain' ≠ [])
    (hnew : ∀ newHead, t.store.refAt ns refName = some newHead →
      t.store.rootOf newHead = some newRoot →
      Standing codec pre normalized ns refName t.store newHead newRoot chain')
    (hrec : Recorded codec pre normalized t chain') :
    (contract codec pre normalized ns refName).invariant t ∧
      (contract codec pre normalized ns refName).guarantee s t := by
  obtain ⟨newHead, href, hroot, -⟩ := hlands.after
  have hstanding' := hnew newHead href hroot
  exact ⟨⟨newHead, newRoot, chain', hstanding', hrec⟩, hlands.advances, htrace,
    fun _ => hstanding'.proposed hne⟩

theorem steps_of_setActive {value : Json} {p : Policy} {path : StatePath}
    (hstanding : Standing codec pre normalized ns refName s.store head root
      chain) (hrec : Recorded codec pre normalized s chain)
    (hlands : s.store.LandsOn ns refName t.store head newRoot)
    (hset : SetsAt t.store.objects root newRoot (activeAt pre normalized) value)
    (htrace : t.trace = s.trace) (hvalue : codec.toValue p = .ok value)
    (hversion : IsVersion normalized (chain.length - 1) p.stored)
    (hpath : StatePath.parse (active pre normalized) = .ok path)
    (hsecret : pathIsSecret (active pre normalized) = false) :
    (contract codec pre normalized ns refName).invariant t ∧
      (contract codec pre normalized ns refName).guarantee s t := by
  have hlength : (chain.dropLast ++ [p.stored]).length = chain.length - 1 + 1 := by
    simp
  have hold : ∀ i, i < chain.length - 1 →
      (chain.dropLast ++ [p.stored])[i]? = chain[i]? := by
    intro i hi
    rw [List.getElem?_append_left (by rwa [List.length_dropLast]),
      List.getElem?_dropLast, if_pos hi]
  refine steps_of_landsOn (chain.dropLast ++ [p.stored]) hlands
    (htrace ▸ List.prefix_rfl) (by simp) ?_ ?_
  · intro newHead href hroot
    refine ⟨?_, href, hroot, hstanding.chainAt.setActive hlands.expands.objects
      hset hvalue, ?_, fun _ => ⟨⟨path, hpath⟩, hsecret⟩, ?_⟩
    · rw [hlands.expands.namespaces]
      exact hstanding.namespace_
    · intro i q hq
      have hlt : i < chain.length - 1 + 1 := by
        rw [← hlength]
        exact (List.getElem?_eq_some_iff.mp hq).1
      by_cases hi : i < chain.length - 1
      · rw [hold i hi] at hq
        exact hstanding.isVersion i q hq
      · have hi : i = chain.dropLast.length := by
          rw [List.length_dropLast]
          omega
        subst hi
        rw [List.getElem?_concat_length, Option.some.injEq] at hq
        rw [← hq, List.length_dropLast]
        exact hversion
    · intro i hi
      apply hstanding.historicalPath i
      rw [hlength] at hi
      omega
  · have hexp := hrec.expands hlands.expands htrace
    refine ⟨?_, ?_⟩
    · rw [hexp.length, hlength, Nat.add_sub_cancel]
    · intro i l hl
      obtain ⟨hhandle, root', q, hroot, hq, hkeeps⟩ := hexp.entry i l hl
      refine ⟨hhandle, root', q, hroot, ?_, hkeeps⟩
      rw [hold i ?_, hq]
      rw [← hexp.length]
      exact (List.getElem?_eq_some_iff.mp hl).1

theorem steps_of_supersede {caller : W} {mid : ObjectStore Id} {midRoot : Id}
    {oldValue value : Json} {old p : Policy} {hist : StatePath}
    (hstanding : Standing codec pre normalized ns refName s.store head root
      chain) (hrec : Recorded codec pre normalized s chain)
    (hlands : s.store.LandsOn ns refName t.store head newRoot)
    (hlast : chain.getLast? = some old)
    (hsm : ∃ objects, objects ≤ mid ∧
      ChainAt codec pre normalized objects root chain)
    (hmt : mid ≤ t.store.objects)
    (hhist : SetsAt mid root midRoot (historicalAt pre normalized old.version)
      oldValue)
    (hset : SetsAt t.store.objects midRoot newRoot (activeAt pre normalized)
      value)
    (htrace : t.trace = s.trace ++ [⟨caller, head, p.handle⟩])
    (hold : codec.toValue old = .ok oldValue)
    (hvalue : codec.toValue p = .ok value)
    (hversion : IsVersion normalized chain.length p.stored)
    (hpath : StatePath.parse (historical pre normalized old.version) =
      .ok hist) :
    (contract codec pre normalized ns refName).invariant t ∧
      (contract codec pre normalized ns refName).guarantee s t := by
  have hne : chain ≠ [] := by
    rintro rfl
    simp at hlast
  have hpos := List.length_pos_of_ne_nil hne
  have hget : chain[chain.length - 1]? = some old := by
    rwa [List.getLast?_eq_getElem?] at hlast
  have hold' := hstanding.isVersion _ _ hget
  have hnumber : old.version = chain.length := by
    rw [hold'.version]
    omega
  rw [hnumber] at hhist hpath
  obtain ⟨objects, hle, hchain⟩ := hsm
  refine steps_of_landsOn (chain ++ [p.stored]) hlands
    (htrace ▸ List.prefix_append _ _) (by simp) ?_ ?_
  · intro newHead href hroot
    refine ⟨?_, href, hroot, hchain.supersede hlast hle hmt hhist hset hold
      hold'.stored hvalue, ?_, fun _ => hstanding.activePath hne, ?_⟩
    · rw [hlands.expands.namespaces]
      exact hstanding.namespace_
    · intro i q hq
      by_cases hi : i < chain.length
      · rw [List.getElem?_append_left hi] at hq
        exact hstanding.isVersion i q hq
      · have hlt := (List.getElem?_eq_some_iff.mp hq).1
        simp only [List.length_append, List.length_singleton] at hlt
        have hi : i = chain.length := by omega
        subst hi
        rw [List.getElem?_concat_length, Option.some.injEq] at hq
        rw [← hq]
        exact hversion
    · intro i hi
      simp only [List.length_append, List.length_singleton] at hi
      by_cases hlast' : i + 1 = chain.length
      · rw [hlast']
        exact ⟨hist, hpath⟩
      · exact hstanding.historicalPath i (by omega)
  · refine ⟨?_, ?_⟩
    · rw [htrace, List.length_append, List.length_append, hrec.length]
      simp only [List.length_singleton]
      omega
    · intro i l hl
      rw [htrace] at hl
      by_cases hi : i < s.trace.length
      · rw [List.getElem?_append_left hi] at hl
        obtain ⟨hhandle, root', q, hroot, hq, hkeeps⟩ := hrec.entry i l hl
        refine ⟨hhandle, root', q, rootOf_of_le hlands.expands.commits hroot, ?_,
          hkeeps.mono hlands.expands.objects⟩
        rw [List.getElem?_append_left (by rw [hrec.length] at hi; omega), hq]
      · have hlt := (List.getElem?_eq_some_iff.mp hl).1
        simp only [List.length_append, List.length_singleton] at hlt
        have hi : i = s.trace.length := by omega
        subst hi
        rw [List.getElem?_concat_length, Option.some.injEq] at hl
        subst hl
        have hindex : s.trace.length + 2 = chain.length + 1 := by
          rw [hrec.length]
          omega
        refine ⟨?_, root, old,
          rootOf_of_le hlands.expands.commits hstanding.rootOf, ?_,
          (hstanding.chainAt.current old hlast).mono hlands.expands.objects⟩
        · rw [hindex]
          exact hversion.handle
        · rw [List.getElem?_append_left (by rw [hrec.length]; omega), hrec.length]
          exact hget

end Steps

/-! ## The calls are safe -/

section Safe

variable {self : PolicyStore} {s : Traced Id (Supersession W Id)}

variable {store : Storage Id} {head root : Id} {chain : List Policy} {α : Type}
  {value : Json} {p : Policy} {spec : Speculation Id} {caller : W}

theorem head_of_liftRepo {h : Id}
    (hstanding : Standing codec self.pre normalized self.repo.activeNamespace
      refName store head root chain)
    (hread : liftRepo (self.repo.resolveRef store refName) = .ok h) :
    store.refAt self.repo.activeNamespace refName = some h := by
  rw [self.repo.resolveRef_of_refAt hstanding.namespace_ hstanding.refAt] at hread
  simp only [liftRepo, Except.ok.injEq] at hread
  rw [← hread]
  exact hstanding.refAt

theorem safe_settle {C : Contract (Traced Id (Supersession W Id))}
    {post : Except (PolicyError Id) α → Traced Id (Supersession W Id) → Prop}
    {done : α} {again : Call W Id α} {out : Except (RepoError Id) Id}
    (herr : ∀ e t, post (.error e) t) (hagain : Safe C post again s)
    (hdone : ∀ id, out = .ok id → ∀ t, C.guarantee s t → post (.ok done) t) :
    Safe C post (settle done again out) s := by
  unfold settle
  split
  next id => exact safe_pure fun t hst _ => hdone id rfl t hst
  next => exact hagain
  next => exact safe_pure fun t _ _ => herr _ t

/-- What a write returns only once a version stands there. -/
def AfterProposal {α : Type} (codec : PolicyCodec)
    (pre normalized ns refName : String) (r : Except (PolicyError Id) α)
    (t : Traced Id (Supersession W Id)) : Prop :=
  ∀ a, r = .ok a → Proposed codec pre normalized ns refName t.store

theorem afterProposal_error {α : Type} (codec : PolicyCodec)
    (pre normalized ns refName : String) (e : PolicyError Id)
    (t : Traced Id (Supersession W Id)) :
    AfterProposal codec pre normalized ns refName
      (.error e : Except (PolicyError Id) α) t := by
  intro a ha
  contradiction

theorem proposed_of_setsAt {newHead newRoot : Id}
    (href : store.refAt ns refName = some newHead)
    (hroot : store.rootOf newHead = some newRoot)
    (hset : SetsAt store.objects root newRoot (activeAt pre normalized) value)
    (hvalue : codec.toValue p = .ok value) :
    Proposed codec pre normalized ns refName store :=
  ⟨newHead, newRoot, p.stored, href, hroot, keepsPolicy_of_setsAt hset hvalue⟩

theorem safe_setActive (root : Id) (chain : List Policy)
    {category : IntentCategory} {description : String} {done : α}
    {again : Call W Id α}
    (hagain : ∀ t, Safe (contract codec self.pre normalized
      self.repo.activeNamespace refName) (AfterProposal codec self.pre normalized
        self.repo.activeNamespace refName) again t)
    (hvalue : codec.toValue p = .ok value)
    (hversion : IsVersion normalized (chain.length - 1) p.stored)
    (hsecret : pathIsSecret (active self.pre normalized) = false)
    (hknown : ∀ t, (contract codec self.pre normalized self.repo.activeNamespace
        refName).guarantee s t →
      (contract codec self.pre normalized self.repo.activeNamespace
        refName).invariant t →
      t.store.refAt self.repo.activeNamespace refName = some head →
      Standing codec self.pre normalized self.repo.activeNamespace refName
        t.store head root chain ∧ Recorded codec self.pre normalized t chain) :
    Safe (contract codec self.pre normalized self.repo.activeNamespace refName)
      (AfterProposal codec self.pre normalized self.repo.activeNamespace refName)
      (self.setActive refName normalized head value category description >>=
        settle done again) s := by
  refine RepoProgram.safe_write fun m t hst ht out hout => ?_
  have hcases := self.repo.setJsonCas_cases t.store refName head
    (active self.pre normalized) value
    (m.options self.agentId category description) m.fired m.now
  rw [hout] at hcases
  have htrace := List.append_nil t.trace
  rw [RepoProgram.noted_nil]
  rcases hcases with
    hrefused | ⟨root', newRoot, path, hroot', hpath, hlands, hset⟩
  · refine ⟨steps_of_refAt_eq ht hrefused.expands hrefused.refAt htrace,
      safe_settle (afterProposal_error _ _ _ _ _) (hagain _) ?_⟩
    intro id hid
    obtain ⟨e, he⟩ := hrefused.error
    rw [hid] at he
    contradiction
  · obtain ⟨hstanding, hrec⟩ := hknown t hst ht hlands.before
    have hsame : root' = root := by
      have hroot := hstanding.rootOf
      rw [hroot'] at hroot
      exact Option.some.inj hroot
    subst hsame
    rw [components_active hpath] at hset
    obtain ⟨newHead, href, hnewRoot, -⟩ := hlands.after
    refine ⟨steps_of_setActive hstanding hrec hlands hset htrace hvalue hversion
      hpath hsecret, safe_settle (afterProposal_error _ _ _ _ _) (hagain _) ?_⟩
    intro id _ u hu a _
    exact hu.2.2 (proposed_of_setsAt href hnewRoot hset hvalue)

theorem known_of_refAt {s₁ s₂ t : Traced Id (Supersession W Id)} {h : Id}
    (href : s₁.store.refAt self.repo.activeNamespace refName = some h)
    (h₁₂ : (contract codec self.pre normalized self.repo.activeNamespace
      refName).guarantee s₁ s₂)
    (hstanding : Standing codec self.pre normalized self.repo.activeNamespace
      refName s₂.store head root chain)
    (h₂t : (contract codec self.pre normalized self.repo.activeNamespace
      refName).guarantee s₂ t)
    (ht : (contract codec self.pre normalized self.repo.activeNamespace
      refName).invariant t)
    (hreft : t.store.refAt self.repo.activeNamespace refName = some h) :
    Standing codec self.pre normalized self.repo.activeNamespace refName t.store
        h root chain ∧
      Recorded codec self.pre normalized t chain := by
  have hmid := h₁₂.1.no_return h₂t.1 href hreft
  have hsame : head = h := Option.some.inj (hstanding.refAt.symm.trans hmid)
  subst hsame
  have hlater := hstanding.expands h₂t.1.expands (hreft.trans hmid.symm)
  obtain ⟨head', root', chain', hstanding', hrec⟩ := ht
  rw [← hlater.chain_unique hstanding'] at hrec
  exact ⟨hlater, hrec⟩

/-- A change of the active version that leaves its number and its place. -/
def KeepsVersion (Id : Type) (normalized : String)
    (change : ℤ → Policy →
      Except (PolicyError Id) (Policy × IntentCategory × String)) : Prop :=
  ∀ now p p' category description i, IsVersion normalized i p →
    change now p = .ok (p', category, description) →
    IsVersion normalized i p'.stored

omit [Digest Id] in
theorem ratification_keepsVersion (ratifier reasoning : String) :
    KeepsVersion Id normalized (ratification ratifier reasoning) := by
  intro now p p' category description i hp h
  unfold ratification at h
  split at h
  next => contradiction
  next =>
    simp only [Except.ok.injEq, Prod.mk.injEq] at h
    rw [← h.1]
    exact ⟨hp.path, hp.version, hp.supersedes, Policy.stored_stored _⟩

omit [Digest Id] in
theorem signing_keepsVersion (signature : PolicySignature) :
    KeepsVersion Id normalized (signing signature) := by
  intro now p p' category description i hp h
  simp only [signing, Except.ok.injEq, Prod.mk.injEq] at h
  rw [← h.1]
  exact ⟨hp.path, hp.version, hp.supersedes, Policy.stored_stored _⟩

theorem safe_updateActive
    {change : ℤ → Policy →
      Except (PolicyError Id) (Policy × IntentCategory × String)}
    (hchange : KeepsVersion Id normalized change) (left : ℕ) :
    Safe (contract codec self.pre normalized self.repo.activeNamespace refName)
      (AfterProposal codec self.pre normalized self.repo.activeNamespace refName)
      (self.updateActive codec refName normalized change left) s := by
  induction left generalizing s with
  | zero => exact safe_pure fun t _ _ => afterProposal_error _ _ _ _ _ _ t
  | succ left ih =>
      have herr := @afterProposal_error Id _ W Unit codec self.pre normalized
        self.repo.activeNamespace refName
      refine RepoProgram.safe_query_attempt herr fun s₁ _ hinv₁ h hread => ?_
      obtain ⟨head₁, root₁, chain₁, hstanding₁, -⟩ := hinv₁
      have href := head_of_liftRepo hstanding₁ hread
      refine RepoProgram.safe_query_attempt herr fun s₂ h₁₂ hinv₂ p hload => ?_
      obtain ⟨head₂, root₂, chain₂, hstanding₂, -⟩ := hinv₂
      have hlast := hstanding₂.getLast_of_loadActive hload
      have hne : chain₂ ≠ [] := by
        rintro rfl
        simp at hlast
      refine safe_read fun m s₃ h₂₃ _ => ?_
      split
      next e _ => exact safe_pure fun t _ _ => herr e t
      next p' category description hch =>
        split
        next e _ => exact safe_pure fun t _ _ => herr _ t
        next value hvalue =>
          have hp : IsVersion normalized (chain₂.length - 1) p := by
            rw [List.getLast?_eq_getElem?] at hlast
            exact hstanding₂.isVersion _ _ hlast
          refine safe_setActive root₂ chain₂ (fun _ => ih) hvalue
            (hchange _ p p' category description _ hp hch)
            (hstanding₂.activePath hne).2 ?_
          intro t h₃t ht hreft
          exact known_of_refAt href h₁₂ hstanding₂
            ((contract codec self.pre normalized self.repo.activeNamespace
              refName).trans h₂₃ h₃t) ht hreft

theorem loadActive_of_exists_false
    (h : self.exists codec store refName normalized = .ok false) :
    pathIsSecret (active self.pre normalized) = false ∧
      ∀ p, self.loadActive codec store refName normalized ≠ .ok p := by
  unfold PolicyStore.exists at h
  split at h
  next => simp at h
  next what hload =>
    refine ⟨?_, fun p hp => by rw [hload] at hp; contradiction⟩
    by_contra hsecret
    have hsecret : pathIsSecret (active self.pre normalized) = true := by
      simpa using hsecret
    have hread : self.repo.getJson store refName (active self.pre normalized) =
        .error (.reservedPath (active self.pre normalized)) := by
      simp only [Repository.getJson, Repository.get, if_pos hsecret]
      rfl
    simp [PolicyStore.loadActive, hread, decodePolicy, isPathNotFound] at hload
  next => simp at h

theorem safe_proposeLoop {handle : String}
    (hvalue : codec.toValue p = .ok value)
    (hversion : IsVersion normalized 0 p.stored) (left : ℕ) :
    Safe (contract codec self.pre normalized self.repo.activeNamespace refName)
      (AfterProposal codec self.pre normalized self.repo.activeNamespace refName)
      (self.proposeLoop codec refName normalized handle value left) s := by
  induction left generalizing s with
  | zero => exact safe_pure fun t _ _ => afterProposal_error _ _ _ _ _ _ t
  | succ left ih =>
      have herr := @afterProposal_error Id _ W String codec self.pre normalized
        self.repo.activeNamespace refName
      refine RepoProgram.safe_query_attempt herr fun s₁ _ hinv₁ h hread => ?_
      obtain ⟨head₁, root₁, chain₁, hstanding₁, -⟩ := hinv₁
      have href := head_of_liftRepo hstanding₁ hread
      refine RepoProgram.safe_query_attempt herr fun s₂ h₁₂ hinv₂ found hex => ?_
      obtain ⟨head₂, root₂, chain₂, hstanding₂, -⟩ := hinv₂
      cases found with
      | true => exact safe_pure fun t _ _ => herr _ t
      | false =>
          obtain ⟨hsecret, hnone⟩ := loadActive_of_exists_false hex
          have hnil : chain₂ = [] := by
            by_contra hne
            obtain ⟨p, hp⟩ := Option.ne_none_iff_exists'.mp
              (fun hnone => hne (List.getLast?_eq_none_iff.mp hnone))
            exact hnone p (hstanding₂.loadActive hp)
          subst hnil
          refine safe_setActive root₂ [] (fun _ => ih) hvalue hversion hsecret ?_
          intro t h₂t ht hreft
          exact known_of_refAt href h₁₂ hstanding₂ h₂t ht hreft

/-! ## Superseding -/

/-- A supersede returns a handle that it landed. -/
def AfterSupersede (caller : W) (r : Except (PolicyError Id) String)
    (t : Traced Id (Supersession W Id)) : Prop :=
  ∀ handle, r = .ok handle →
    ∃ l ∈ t.trace, l.caller = caller ∧ l.handle = handle

theorem afterSupersede_error (caller : W) (e : PolicyError Id)
    (t : Traced Id (Supersession W Id)) :
    AfterSupersede caller (.error e) t := by
  intro handle hhandle
  contradiction

theorem safe_setSpeculation {path : String} {g : Speculation Id → Call W Id α}
    {post : Except (PolicyError Id) α → Traced Id (Supersession W Id) → Prop}
    (herr : ∀ e t, post (.error e) t) (hg : ∀ t u spec',
      (contract codec pre normalized ns refName).guarantee s t →
      (contract codec pre normalized ns refName).guarantee t u →
      specSetJson t.store spec path value = (.ok spec', u.store) →
      Safe (contract codec pre normalized ns refName) post (g spec') u) :
    Safe (contract codec pre normalized ns refName) post
      ((setSpeculation spec path value).attempt g) s := by
  change Safe _ post (RepoProgram.write (fun _ store =>
    specSetJson store spec path value) (fun _ => []) >>= fun out =>
      attempt (pure (liftRepo out)) g) s
  refine RepoProgram.safe_write fun m t hst ht out hout => ?_
  have hadds := specSetJson_addsObjects t.store spec path value
  rw [hout] at hadds
  have hsteps := steps_of_refAt_eq ht
    (t := ⟨out.2, t.trace ++ RepoProgram.noted (fun _ => []) out.1⟩)
    ⟨hadds.le, hadds.commits.ge, hadds.namespaces⟩
    (by simp only [Storage.refAt, hadds.refs]) (by simp)
  refine ⟨hsteps, ?_⟩
  obtain ⟨r, store'⟩ := out
  cases r with
  | ok spec' => exact hg t _ spec' hst hsteps.2 hout
  | error e => exact safe_pure fun u _ _ => herr _ u

omit [Digest Id] in
theorem successor_isVersion (self : PolicyStore) (newPolicy : Policy) (now : ℤ)
    {old : Policy} {i : ℕ} (h : IsVersion normalized i old) :
    IsVersion normalized (i + 1)
      (self.successor newPolicy old normalized now).stored where
  path := rfl
  version := by
    change old.version + 1 = _
    rw [h.version]
  supersedes := by
    change some old.handle = _
    rw [h.handle, if_neg (by omega)]
  stored := Policy.stored_stored _

theorem specSetJson_baseRoot {store' : Storage Id} {spec' : Speculation Id}
    {path : String}
    (h : specSetJson store spec path value = (.ok spec', store')) :
    spec'.baseRoot = spec.baseRoot ∧ spec'.baseRef = spec.baseRef := by
  obtain ⟨-, -, heq, -⟩ := specSetJson_eq_ok h
  rw [heq]
  exact ⟨rfl, rfl⟩

theorem safe_commitSupersede {old : Policy} {oldValue : Json} {midRoot : Id}
    {base mid last : ObjectStore Id} {hist : StatePath} {description : String}
    {again : Call W Id String}
    (hagain : ∀ t, Safe (contract codec self.pre normalized
      self.repo.activeNamespace refName) (AfterSupersede caller) again t)
    (hlast : chain.getLast? = some old)
    (hchain : ChainAt codec self.pre normalized base root chain)
    (hbase : base ≤ mid) (hmid : mid ≤ last) (hlastle : last ≤ s.store.objects)
    (hhist : SetsAt mid spec.baseRoot midRoot
      (historicalAt self.pre normalized old.version) oldValue)
    (hset : SetsAt last midRoot spec.currentRoot
      (activeAt self.pre normalized) value)
    (hold : codec.toValue old = .ok oldValue)
    (hvalue : codec.toValue p = .ok value)
    (hversion : IsVersion normalized chain.length p.stored)
    (hpath : StatePath.parse (historical self.pre normalized old.version) =
      .ok hist) (href : spec.baseRef = refName)
    (hknown : ∀ t, (contract codec self.pre normalized self.repo.activeNamespace
        refName).guarantee s t →
      (contract codec self.pre normalized self.repo.activeNamespace
        refName).invariant t →
      t.store.refAt self.repo.activeNamespace refName = some head →
      Standing codec self.pre normalized self.repo.activeNamespace refName
        t.store head root chain ∧ Recorded codec self.pre normalized t chain) :
    Safe (contract codec self.pre normalized self.repo.activeNamespace refName)
      (AfterSupersede caller)
      (RepoProgram.write (fun m store => self.repo.commitSpeculationCas store
          spec head (m.options self.agentId .policySupersede description)
          (m.now 0)) (fun _ => [⟨caller, head, p.handle⟩]) >>=
        settle p.handle again) s := by
  subst href
  refine RepoProgram.safe_write fun m t hst ht out hout => ?_
  have hcases := self.repo.commitSpeculationCas_cases t.store spec head
    (m.options self.agentId .policySupersede description) (m.now 0)
  rw [hout] at hcases
  rcases hcases with hrefused | ⟨hroot, ⟨id, hid⟩, hlands⟩
  · obtain ⟨e, he⟩ := hrefused.error
    have htrace : t.trace ++ RepoProgram.noted
        (fun _ => [(⟨caller, head, p.handle⟩ : Supersession W Id)]) out.1 =
        t.trace := by
      rw [he]
      exact List.append_nil _
    refine ⟨steps_of_refAt_eq ht hrefused.expands hrefused.refAt htrace,
      safe_settle (afterSupersede_error caller) (hagain _) ?_⟩
    intro id hid
    rw [hid] at he
    contradiction
  · obtain ⟨hstanding, hrec⟩ := hknown t hst ht hlands.before
    have hsame : spec.baseRoot = root := by
      have hroot' := hstanding.rootOf
      rw [hroot] at hroot'
      exact Option.some.inj hroot'
    rw [hsame] at hhist
    have htrace : t.trace ++ RepoProgram.noted
        (fun _ => [(⟨caller, head, p.handle⟩ : Supersession W Id)]) out.1 =
        t.trace ++ [⟨caller, head, p.handle⟩] := by
      rw [hid]
      rfl
    have hle : last ≤ out.2.objects :=
      (hlastle.trans hst.1.expands.objects).trans hlands.expands.objects
    refine ⟨steps_of_supersede hstanding hrec hlands hlast ⟨base, hbase, hchain⟩
      (hmid.trans hle) hhist (hset.mono hle) htrace hold hvalue hversion hpath,
      safe_settle (afterSupersede_error caller) (hagain _) ?_⟩
    intro _ _ u hu handle hhandle
    refine ⟨⟨caller, head, p.handle⟩, ?_, rfl, Except.ok.inj hhandle⟩
    apply hu.2.1.subset
    rw [htrace]
    exact List.mem_append_right _ (List.mem_singleton_self _)

theorem safe_supersedeLoop (newPolicy : Policy) (left : ℕ) :
    Safe (contract codec self.pre normalized self.repo.activeNamespace refName)
      (AfterSupersede caller)
      (self.supersedeLoop codec caller refName normalized newPolicy left) s := by
  induction left generalizing s newPolicy with
  | zero => exact safe_pure fun t _ _ => afterSupersede_error _ _ t
  | succ left ih =>
      have herr := @afterSupersede_error Id _ W caller
      refine RepoProgram.safe_query_attempt herr fun s₁ _ hinv₁ h hread => ?_
      obtain ⟨head₁, root₁, chain₁, hstanding₁, -⟩ := hinv₁
      have href := head_of_liftRepo hstanding₁ hread
      refine RepoProgram.safe_query_attempt herr fun s₂ h₁₂ hinv₂ old hload => ?_
      obtain ⟨head₂, root₂, chain₂, hstanding₂, -⟩ := hinv₂
      have hlast := hstanding₂.getLast_of_loadActive hload
      refine safe_read fun m s₃ h₂₃ _ => ?_
      dsimp only
      split
      next e _ => exact safe_pure fun t _ _ => herr _ t
      next e _ _ => exact safe_pure fun t _ _ => herr _ t
      next oldValue newValue hold hvalue =>
        refine RepoProgram.safe_query_attempt herr fun s₄ h₃₄ _ spec hspec => ?_
        have hforked : spec.currentRoot = spec.baseRoot ∧
            spec.baseRef = refName := by
          unfold liftRepo at hspec
          split at hspec
          next spec' hspec' =>
            obtain ⟨root, -, hspec'⟩ := Except.bind_eq_ok_iff.mp hspec'
            rw [Except.ok.injEq] at hspec hspec'
            rw [← hspec, ← hspec']
            exact ⟨rfl, rfl⟩
          next => contradiction
        refine safe_setSpeculation herr fun s₅ u₅ spec₁ h₄₅ h₅ hset₁ => ?_
        refine safe_setSpeculation herr fun s₆ u₆ spec₂ h₅₆ h₆ hset₂ => ?_
        obtain ⟨hist, hhist, -, hsets₁⟩ := specSetJson_eq_ok hset₁
        obtain ⟨act, hact, -, hsets₂⟩ := specSetJson_eq_ok hset₂
        rw [components_historical hhist] at hsets₁
        rw [components_active hact] at hsets₂
        obtain ⟨hbase₁, href₁⟩ := specSetJson_baseRoot hset₁
        obtain ⟨hbase₂, href₂⟩ := specSetJson_baseRoot hset₂
        have h₂₅ := (contract codec self.pre normalized self.repo.activeNamespace
          refName).trans (s := s₂) h₂₃ ((contract codec self.pre normalized
            self.repo.activeNamespace refName).trans h₃₄
              ((contract codec self.pre normalized self.repo.activeNamespace
                refName).trans h₄₅ h₅))
        have h₅₆' := (contract codec self.pre normalized
          self.repo.activeNamespace refName).trans h₅₆ h₆
        have hnum : IsVersion normalized (chain₂.length - 1) old := by
          rw [List.getLast?_eq_getElem?] at hlast
          exact hstanding₂.isVersion _ _ hlast
        have hpos : 0 < chain₂.length := by
          apply List.length_pos_of_ne_nil
          rintro rfl
          simp at hlast
        have hnext : IsVersion normalized chain₂.length
            (self.successor newPolicy old normalized (m.now 0)).stored := by
          have hsucc := successor_isVersion self newPolicy (m.now 0) hnum
          rwa [Nat.sub_add_cancel hpos] at hsucc
        refine safe_commitSupersede (fun _ => ih _) hlast
          hstanding₂.chainAt h₂₅.1.expands.objects h₅₆'.1.expands.objects
          (le_refl _) ?_ hsets₂ hold hvalue hnext hhist ?_ ?_
        · rw [hbase₂, hbase₁, ← hforked.1]
          exact hsets₁
        · rw [href₂, href₁, hforked.2]
        · intro t h₆t ht hreft
          refine known_of_refAt href h₁₂ hstanding₂ ?_ ht hreft
          exact (contract codec self.pre normalized self.repo.activeNamespace
            refName).trans h₂₅ ((contract codec self.pre normalized
              self.repo.activeNamespace refName).trans h₅₆' h₆t)

/-! ## Whole calls -/

theorem safe_propose {policy : Policy}
    (hpath : normalize policy.path = (.ok normalized : Except (PolicyError Id) _)) :
    Safe (contract codec self.pre normalized self.repo.activeNamespace refName)
      (AfterProposal codec self.pre normalized self.repo.activeNamespace refName)
      (self.propose codec refName policy) s := by
  unfold PolicyStore.propose
  rw [hpath]
  refine safe_read fun m t _ _ => ?_
  by_cases hunset : isUnset policy.activeFrom
  · simp only [hunset, if_true]
    refine safe_read fun m' t' _ _ => ?_
    split
    next e _ => exact safe_pure fun u _ _ => afterProposal_error _ _ _ _ _ _ u
    next value hvalue =>
      exact safe_proposeLoop hvalue ⟨rfl, rfl, rfl, Policy.stored_stored _⟩ _
  · simp only [hunset, Bool.false_eq_true, if_false, Program.pure_bind]
    split
    next e _ => exact safe_pure fun u _ _ => afterProposal_error _ _ _ _ _ _ u
    next value hvalue =>
      exact safe_proposeLoop hvalue ⟨rfl, rfl, rfl, Policy.stored_stored _⟩ _

theorem safe_ratify {path ratifier reasoning : String}
    (hpath : normalize path = (.ok normalized : Except (PolicyError Id) _)) :
    Safe (contract codec self.pre normalized self.repo.activeNamespace refName)
      (AfterProposal codec self.pre normalized self.repo.activeNamespace refName)
      (self.ratify codec refName path ratifier reasoning) s := by
  unfold PolicyStore.ratify
  rw [hpath]
  split
  next => exact safe_pure fun u _ _ => afterProposal_error _ _ _ _ _ _ u
  next => exact safe_updateActive (ratification_keepsVersion _ _) _

theorem safe_setSignature {path : String} {signature : PolicySignature}
    (hpath : normalize path = (.ok normalized : Except (PolicyError Id) _)) :
    Safe (contract codec self.pre normalized self.repo.activeNamespace refName)
      (AfterProposal codec self.pre normalized self.repo.activeNamespace refName)
      (self.setSignature codec refName path signature) s := by
  unfold PolicyStore.setSignature
  rw [hpath]
  exact safe_updateActive (signing_keepsVersion _) _

theorem safe_supersede {path : String} {newPolicy : Policy}
    (hpath : normalize path = (.ok normalized : Except (PolicyError Id) _)) :
    Safe (contract codec self.pre normalized self.repo.activeNamespace refName)
      (AfterSupersede caller)
      (self.supersede codec caller refName path newPolicy) s := by
  unfold PolicyStore.supersede
  rw [hpath]
  by_cases hunset : isUnset newPolicy.activeFrom
  · simp only [hunset, if_true]
    exact safe_read fun m t _ _ => safe_supersedeLoop _ _
  · simp only [hunset, Bool.false_eq_true, if_false]
    exact safe_supersedeLoop _ _

end Safe

def PolicyOp.isSupersede : PolicyOp → Bool
  | .supersede _ _ => true
  | _ => false

/-- What a call returns: a version stands there, and a supersede returns the
handle that it landed. -/
def Returned (codec : PolicyCodec) (pre normalized ns refName : String)
    (caller : W) (op : PolicyOp)
    (r : Except (PolicyError Id) (Option String))
    (t : Traced Id (Supersession W Id)) : Prop :=
  ∀ h, r = .ok h → Proposed codec pre normalized ns refName t.store ∧
    (op.isSupersede = true →
      ∃ l ∈ t.trace, l.caller = caller ∧ h = some l.handle)

theorem safe_afterProposal {α : Type} {self : PolicyStore} {caller : W}
    {op : PolicyOp} {p : Call W Id α} {f : α → Option String}
    {s : Traced Id (Supersession W Id)}
    (hs : (contract codec self.pre normalized self.repo.activeNamespace
      refName).invariant s)
    (hop : op.isSupersede = false)
    (hp : Safe (contract codec self.pre normalized self.repo.activeNamespace
      refName) (AfterProposal codec self.pre normalized
        self.repo.activeNamespace refName) p s) :
    Safe (contract codec self.pre normalized self.repo.activeNamespace refName)
      (Returned codec self.pre normalized self.repo.activeNamespace refName
        caller op)
      (p.attempt fun a => pure (.ok (f a))) s := by
  refine RepoProgram.safe_attempt (by simp [Returned]) hp ?_ hs
  intro a t ht hmid
  refine safe_pure fun u htu hu h hh => ⟨htu.2.2 (hmid a rfl), ?_⟩
  intro hsup
  rw [hop] at hsup
  contradiction

theorem safe_program {self : PolicyStore} (caller : W) (op : PolicyOp)
    {s : Traced Id (Supersession W Id)}
    (hs : (contract codec self.pre normalized self.repo.activeNamespace
      refName).invariant s)
    (hpath : normalize op.path = (.ok normalized : Except (PolicyError Id) _)) :
    Safe (contract codec self.pre normalized self.repo.activeNamespace refName)
      (Returned codec self.pre normalized self.repo.activeNamespace refName
        caller op)
      (op.program codec self caller refName) s := by
  cases op with
  | propose policy => exact safe_afterProposal hs rfl (safe_propose hpath)
  | ratify path ratifier reasoning =>
      exact safe_afterProposal hs rfl (safe_ratify hpath)
  | setSignature path signature =>
      exact safe_afterProposal hs rfl (safe_setSignature hpath)
  | supersede path newPolicy =>
      refine RepoProgram.safe_attempt (by simp [Returned])
        (safe_supersede hpath) ?_ hs
      intro handle t ht hmid
      obtain ⟨l, hl, hcaller, hhandle⟩ := hmid handle rfl
      refine safe_pure fun u htu hu h hh => ?_
      have hmem := htu.2.1.subset hl
      obtain ⟨head, root, chain, hstanding, hrec⟩ := hu
      refine ⟨hstanding.proposed ?_, fun _ => ⟨l, hmem, hcaller, ?_⟩⟩
      · rintro rfl
        have hlength := hrec.length
        have hpos := List.length_pos_of_mem hmem
        simp at hlength
        simp [hlength] at hpos
      · rw [Except.ok.injEq] at hh
        rw [← hh, hhandle]

/-! ## Every interleaving -/

section Runs

variable [DecidableEq W]

/-- The calls, none begun, on a store. -/
def start (codec : PolicyCodec) (stores : W → PolicyStore) (ops : W → PolicyOp)
    (refName : String) (store : Storage Id) :
    Config W Moment (Traced Id (Supersession W Id))
      (Except (PolicyError Id) (Option String)) :=
  ⟨⟨store, []⟩, fun w => (ops w).program codec (stores w) w refName⟩

omit [DecidableEq W] in
theorem start_holds {codec : PolicyCodec} {stores : W → PolicyStore}
    {ops : W → PolicyOp} {refName pre normalized ns : String}
    {store : Storage Id} {head root : Id}
    (hstores : ∀ w, (stores w).repo.activeNamespace = ns ∧ (stores w).pre = pre ∧
      normalize (ops w).path = (.ok normalized : Except (PolicyError Id) _))
    (hns : ns ∈ store.namespaces) (hhead : store.refAt ns refName = some head)
    (hroot : store.rootOf head = some root)
    (habsent : AbsentAt store.objects root (activeAt pre normalized)) :
    (start codec stores ops refName store).Holds
      (contract codec pre normalized ns refName)
      fun w => Returned codec pre normalized ns refName w (ops w) := by
  have hinv : (contract codec pre normalized ns refName).invariant
      (start codec stores ops refName store).shared := by
    refine ⟨head, root, [], ⟨hns, hhead, hroot, ⟨fun _ => habsent, ?_, ?_⟩, ?_,
      ?_, ?_⟩, rfl, ?_⟩ <;> simp [start]
  refine ⟨hinv, fun w => ?_⟩
  obtain ⟨rfl, rfl, hpath⟩ := hstores w
  exact safe_program w (ops w) hinv hpath

omit [DecidableEq W] in
/-- Two supersedes that landed have different handles. -/
theorem Recorded.caller_eq {codec : PolicyCodec} {pre normalized : String}
    {s : Traced Id (Supersession W Id)} {chain : List Policy}
    (h : Recorded codec pre normalized s chain) {l l' : Supersession W Id}
    (hl : l ∈ s.trace) (hl' : l' ∈ s.trace) (heq : l.handle = l'.handle) :
    l.caller = l'.caller := by
  obtain ⟨i, hi⟩ := List.mem_iff_getElem?.mp hl
  obtain ⟨j, hj⟩ := List.mem_iff_getElem?.mp hl'
  rw [(h.entry i l hi).1, (h.entry j l' hj).1] at heq
  have hij : i = j := by
    have hnumber := handleOf_injective normalized heq
    omega
  subst hij
  rw [Option.some.inj (hi.symm.trans hj)]

/-- Any number of stores that propose, ratify, sign and supersede at one path
of one ref, in any interleaving, starting where the path is empty.  Either no
call has succeeded and there is no history, or the history has the versions
`1..n`, each above the first superseding the one below, and each superseded one
is returned as the parent of the commit that superseded it has it.  No two
supersedes return one handle. -/
theorem versions_chain (codec : PolicyCodec) (stores : W → PolicyStore)
    (ops : W → PolicyOp) (reader : PolicyStore)
    (refName path normalized : String) (store : Storage Id) (head root : Id)
    (hstores : ∀ w,
      (stores w).repo.activeNamespace = reader.repo.activeNamespace ∧
      (stores w).pre = reader.pre ∧
      normalize (ops w).path = (.ok normalized : Except (PolicyError Id) _))
    (hpath : normalize path = (.ok normalized : Except (PolicyError Id) _))
    (hns : reader.repo.activeNamespace ∈ store.namespaces)
    (hhead : store.refAt reader.repo.activeNamespace refName = some head)
    (hroot : store.rootOf head = some root)
    (habsent : AbsentAt store.objects root (activeAt reader.pre normalized))
    (schedule : List (W × Moment)) :
    let fin := (start codec stores ops refName store).run schedule
    (((∃ e, reader.history codec fin.shared.store refName path = .error e) ∧
        fin.shared.trace = [] ∧ ∀ w h, fin.progs w ≠ .done (.ok h)) ∨
      ∃ versions,
        reader.history codec fin.shared.store refName path = .ok versions ∧
        versions.map Policy.version = List.range' 1 versions.length ∧
        (∀ i p q, versions[i]? = some p → versions[i + 1]? = some q →
          q.supersedes = some p.handle) ∧
        fin.shared.trace.length + 1 = versions.length ∧
        ∀ i l, fin.shared.trace[i]? = some l →
          ∃ p, reader.loadActive codec (fin.shared.store.putRef
              reader.repo.activeNamespace refName l.parent) refName normalized =
              .ok p ∧
            reader.get codec fin.shared.store refName path (some (i + 1)) =
              .ok p ∧ versions[i]? = some p) ∧
      ∀ w w' h h', (ops w).isSupersede = true → (ops w').isSupersede = true →
        w ≠ w' → fin.progs w = .done (.ok h) → fin.progs w' = .done (.ok h') →
        h ≠ h' := by
  intro fin
  have hholds := ((start codec stores ops refName store).holds_run
    (start_holds hstores hns hhead hroot habsent) schedule).1
  obtain ⟨finHead, finRoot, chain, hstanding, hrec⟩ := hholds.1
  refine ⟨?_, ?_⟩
  · by_cases hnil : chain = []
    · subst hnil
      refine Or.inl ⟨?_, List.eq_nil_of_length_eq_zero hrec.length, ?_⟩
      · cases hload : reader.loadActive codec fin.shared.store refName
            normalized with
        | ok p => exact absurd hload hstanding.loadActive_nil
        | error e =>
            refine ⟨e, ?_⟩
            simp only [PolicyStore.history, hpath, hload, Except.ok_bind]
            rfl
      · intro w h hdone
        exact hstanding.ne_nil_of_proposed (hholds.returned hdone h rfl).1 rfl
    · have hpos := List.length_pos_of_ne_nil hnil
      refine Or.inr ⟨chain, hstanding.history hnil hpath, ?_, ?_, ?_, ?_⟩
      · apply List.ext_getElem?
        intro i
        by_cases hi : i < chain.length
        · have hversion := (hstanding.isVersion i _
            (List.getElem?_eq_getElem hi)).version
          simp [hi, hversion, Nat.add_comm]
        · rw [List.getElem?_eq_none (by simpa using hi),
            List.getElem?_eq_none (by simpa using hi)]
      · intro i p q hp hq
        rw [(hstanding.isVersion _ _ hq).supersedes, if_neg (by omega),
          (hstanding.isVersion _ _ hp).handle]
      · have hlength := hrec.length
        change fin.shared.trace.length = _ at hlength
        omega
      · intro i l hl
        obtain ⟨-, root', p, hroot', hp, hkeeps⟩ := hrec.entry i l hl
        obtain ⟨⟨act, hact⟩, hsecret⟩ := hstanding.activePath hnil
        refine ⟨p, ?_, hstanding.get hp hpath, hp⟩
        rw [← components_active hact] at hkeeps
        exact decode_of_keepsPolicy (s := fin.shared.store.putRef _ _ _)
          hstanding.namespace_ (refAt_putRef_self _ _ _ _) hroot' hact hsecret
          hkeeps
  · intro w w' h h' hsup hsup' hne hdone hdone' heq
    obtain ⟨l, hl, hcaller, hhandle⟩ := (hholds.returned hdone h rfl).2 hsup
    obtain ⟨l', hl', hcaller', hhandle'⟩ :=
      (hholds.returned hdone' h' rfl).2 hsup'
    have hsame : l.handle = l'.handle := by
      rw [hhandle, hhandle'] at heq
      exact Option.some.inj heq
    exact hne (hcaller.symm.trans ((hrec.caller_eq hl hl' hsame).trans hcaller'))

end Runs

/-! ## A race of two supersedes -/

namespace Race

open ContentKey

/-- A policy with nothing but its place, its author and what it supersedes. -/
def plain (path : String) (version : ℕ) (proposedBy : String)
    (supersedes : Option String) : Policy where
  path := path
  version := version
  situation := "pod failing"
  situationSelector := .always
  allow := []
  deny := []
  requireApproval := []
  procedure := none
  triggers := []
  requiredFields := []
  severity := .low
  proposedBy := proposedBy
  proposedAt := 0
  ratifiedBy := none
  ratifiedAt := none
  ratificationReasoning := none
  activeFrom := 0
  expiresAt := none
  supersedes := supersedes
  signature := none
  tenantId := none
  externalEvaluator := none

def isPlain (p : Policy) : Bool :=
  (match p.situationSelector with
    | .always => true
    | _ => false) &&
  p.situation == "pod failing" && p.allow == [] && p.deny == [] &&
  p.requireApproval == [] && p.procedure == none && p.triggers == [] &&
  p.requiredFields == [] && p.severity == .low && p.proposedAt == 0 &&
  p.ratifiedBy == none && p.ratifiedAt == none &&
  p.ratificationReasoning == none && p.activeFrom == 0 &&
  p.expiresAt == none && p.signature == none && p.tenantId == none &&
  p.externalEvaluator == none && decide (p.version < 2 ^ 64)

theorem eq_plain {p : Policy} (h : isPlain p = true) :
    p = plain p.path p.version p.proposedBy p.supersedes ∧
      p.version < 2 ^ 64 := by
  obtain ⟨path, version, situation, selector, allow, deny, requireApproval,
    procedure, triggers, requiredFields, severity, proposedBy, proposedAt,
    ratifiedBy, ratifiedAt, reasoning, activeFrom, expiresAt, supersedes,
    signature, tenantId, evaluator⟩ := p
  cases selector <;> simp_all [isPlain, plain]

/-- The fields of a plain policy up to `supersedes`, in key order. -/
def fields (path proposedBy : String) : List (String × Json) :=
  [("active_from", .string "1970-01-01T00:00:00Z"), ("allow", .array []),
    ("deny", .array []), ("path", .string path),
    ("proposed_at", .string "1970-01-01T00:00:00Z"),
    ("proposed_by", .string proposedBy), ("require_approval", .array []),
    ("required_fields", .array []), ("severity", .string "low"),
    ("situation", .string "pod failing"),
    ("situation_selector", .object [("kind", .string "always")])]

def document (path : String) (version : UInt64) (proposedBy : String)
    (supersedes : Option String) : Json :=
  .object (fields path proposedBy ++
    (supersedes.toList.map fun s => ("supersedes", .string s)) ++
    [("triggers", .array []), ("version", .number (.posInt version))])

theorem document_isCanonical (path : String) (version : UInt64)
    (proposedBy : String) (supersedes : Option String) :
    (document path version proposedBy supersedes).isCanonical = true := by
  rw [document, Json.isCanonical, Bool.and_eq_true, decide_eq_true_eq]
  constructor
  · cases supersedes with
    | none =>
        simp only [fields, List.map_cons, List.map_nil,
          Option.toList_none, List.nil_append, List.cons_append]
        decide
    | some s =>
        simp only [fields, List.map_cons, List.map_nil,
          Option.toList_some, List.nil_append, List.cons_append]
        decide
  · cases supersedes <;>
      simp [fields, Json.isCanonical, Json.entriesCanonical, Json.areCanonical,
        Number.isCanonical]

def toValue (p : Policy) : Except String Json :=
  if isPlain p then
    .ok (document p.path (UInt64.ofNat p.version) p.proposedBy p.supersedes)
  else .error "not a plain policy"

def fromValue : Json → Except String Policy
  | .object [_, _, _, (_, .string path), _, (_, .string proposedBy), _, _, _, _,
      _, _, (_, .number (.posInt version))] =>
      .ok (plain path version.toNat proposedBy none)
  | .object [_, _, _, (_, .string path), _, (_, .string proposedBy), _, _, _, _,
      _, (_, .string supersedes), _, (_, .number (.posInt version))] =>
      .ok (plain path version.toNat proposedBy (some supersedes))
  | _ => .error "missing field"

def plainCodec : PolicyCodec where
  toValue := toValue
  fromValue := fromValue
  canonical := by
    intro p value h
    unfold toValue at h
    split at h
    next hplain =>
      rw [Except.ok.injEq] at h
      rw [← h]
      exact document_isCanonical _ _ _ _
    next => contradiction
  fromValue_toValue := by
    intro p value h
    unfold toValue at h
    split at h
    next hplain =>
      obtain ⟨hp, hversion⟩ := eq_plain hplain
      have hback : (UInt64.ofNat p.version).toNat = p.version := by
        simpa using Nat.mod_eq_of_lt hversion
      rw [Except.ok.injEq] at h
      subst h
      rw [hp]
      cases hsup : p.supersedes <;>
        simp [document, fields, fromValue, plain, hback, Policy.stored]
    next => contradiction

/-- One proposes, one supersedes. -/
inductive Caller where
  | proposer | successor
deriving DecidableEq

def stores (_ : Caller) : PolicyStore :=
  PolicyStore.new Repository.new "/policies/" "ops"

def ops : Caller → PolicyOp
  | .proposer => .propose (plain "infra/k8s" 0 "" none)
  | .successor => .supersede "/infra/k8s" (plain "" 0 "" none)

def begun : Commit ContentKey := commitOf Object.emptyMap [] 0

def store : Storage ContentKey :=
  ({ Storage.new with
      objects := AddressedMap.empty.putAll [Object.emptyMap]
      commits := AddressedMap.empty.putAll [begun] } :
    Storage ContentKey).putRef "default" "main" begun.id

def moment : Moment := ⟨fun _ => 0, "intent", "", []⟩

/-- The supersede begins before the proposal has landed. -/
def schedule : List (Caller × Moment) :=
  (List.replicate 3 Caller.proposer ++ [Caller.successor] ++
    List.replicate 2 Caller.proposer ++ List.replicate 7 Caller.successor).map
      fun w => (w, moment)

def fin : Config Caller Moment (Traced ContentKey
    (PolicyStore.Supersession Caller ContentKey))
    (Except (PolicyError ContentKey) (Option String)) :=
  (start plainCodec stores ops "main" store).run schedule

theorem successor_returned :
    (fin.progs .successor).returned? = some (.ok (some "infra/k8s@2")) := by
  decide +kernel

theorem absentAt_store : AbsentAt store.objects
    (Object.emptyMap : Object ContentKey).id
    (activeAt (stores .proposer).pre "infra/k8s") :=
  absentAt_of_complete
    (ObjectStore.complete_of_isClosed (by decide) (by decide))
    (by decide)

theorem normalize_ops (w : Caller) : normalize (ops w).path =
    (.ok "infra/k8s" : Except (PolicyError ContentKey) String) := by
  cases w <;> decide

end Race

open Race in
/-- The supersede lands on the proposal. -/
theorem versions_chain_race :
    (fin.progs .successor).returned? = some (.ok (some "infra/k8s@2")) ∧
      ∃ versions, (stores .proposer).history plainCodec fin.shared.store "main"
          "infra/k8s" = .ok versions ∧
        versions.map Policy.version = List.range' 1 versions.length ∧
        fin.shared.trace.length + 1 = versions.length := by
  have hchain := (versions_chain plainCodec stores ops (stores .proposer) "main"
    "infra/k8s" "infra/k8s" store begun.id
    (Object.emptyMap : Object ContentKey).id
    (fun w => ⟨rfl, rfl, normalize_ops w⟩) (by decide)
    (by decide) (by decide) (by decide) absentAt_store
    schedule).1
  have hfin : (start plainCodec stores ops "main" store).run schedule = fin := by
    rw [fin]
  rw [hfin] at hchain
  refine ⟨successor_returned, ?_⟩
  rcases hchain with ⟨-, -, hnone⟩ | ⟨versions, hhist, hnumbers, -, hlength, -⟩
  · exact absurd (eq_done_of_returned? successor_returned) (hnone .successor _)
  · exact ⟨versions, hhist, hnumbers, hlength⟩

end Policies

end AgentStateGraph
