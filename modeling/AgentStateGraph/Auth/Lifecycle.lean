import AgentStateGraph.Auth.Keys
import AgentStateGraph.Backend.Texts
import AgentStateGraph.Lib.StepRuns

/-!
# The life of an API key

Memory and file change together, a save that fails changes neither, and a key
that was revoked or rotated stays disabled, restarts included, as long as no
registration of an operator's key lands on it.  Such a registration looks the
key up and inserts it in two steps, so a key that came and was revoked in
between is enabled again.
-/

namespace AgentStateGraph

namespace Auth

variable (setup : Setup) {W : Type}

/-! ## What is promised -/

/-- The key but for when it was last used. -/
def StoredKey.forget (k : StoredKey) : StoredKey := { k with lastUsedAt := none }

def SameKeys (a b : Keys) : Prop :=
  ∀ h : String, a[h]?.map StoredKey.forget = b[h]?.map StoredKey.forget

/-- The file has the keys of memory, up to when they were last used. -/
def Saved (s : Server W) : Prop :=
  ∃ keys, loadKeys setup s.file = .ok (keys, false) ∧ SameKeys s.keys keys

/-- No key that was revoked or rotated authenticates. -/
def Gone (s : Server W) : Prop :=
  ∀ raw now, setup.hashKey raw ∈ s.revoked → s.live setup raw now = none

/-- The save of a call failed. -/
def Answer.Failed : Answer → Prop
  | .created r => ∃ e, r = .error e
  | .rotated r => ∃ e, r = .error e
  | .revoked r => ∃ e, r = .error e
  | .registered r => ∃ e, r = .error e
  | _ => False

/-- Tenant, capabilities, namespace and expiry of a rotated key. -/
structure SameScope (old : StoredKey) (new : ApiKey) : Prop where
  tenantId : new.tenantId = old.tenantId
  commitAgentId : new.commitAgentId = old.commitAgentId
  canMigrate : new.canMigrate = old.canMigrate
  isAdmin : new.isAdmin = old.isAdmin
  namespaceId : new.namespaceId = old.namespaceId
  expiresAt : new.expiresAt = old.expiresAt

/-- What a step answers and leaves, whatever came before. -/
structure Upholds [DecidableEq W] (s : Server W) (action : Action W) : Prop where
  saved : Saved setup (s.step setup action)
  gone : Gone setup (s.step setup action)
  failed : ∀ answer, (s.call setup action).1 = some answer → answer.Failed →
    (s.step setup action).keys = s.keys ∧ (s.step setup action).file = s.file
  rotated : ∀ save hex raw now keyId new,
    action = .rotateKey save hex raw now keyId →
      (s.call setup action).1 = some (.rotated (.ok (some new))) →
        ∃ (hash : String) (old : StoredKey), s.keys[hash]? = some old ∧
          old.id = keyId ∧ SameScope old new
  repo : ∀ w now key tenant choice, action = .getRepoChoose w now →
    s.inFlight w = some (.choose key tenant) →
      (s.call setup action).1 = some (.repo (.ok choice)) →
        ∃ stored, s.keys[setup.hashKey key]? = some stored ∧
          (stored.isAdmin ∨ stored.tenantId = setup.tenantId)

/-- The keys and ids that are drawn are not in use. -/
def Fresh (s : Server W) : Action W → Prop
  | .createKeyWith _ hex raw _ _ _ _ _ | .rotateKey _ hex raw _ _ =>
      s.keys[setup.hashKey raw]? = none ∧
        ∀ (h : String) (k : StoredKey), s.keys[h]? = some k →
          k.id ≠ generateKeyId hex
  | .registerAdminInsert _ _ hex _ =>
      ∀ (h : String) (k : StoredKey), s.keys[h]? = some k →
        k.id ≠ generateKeyId hex
  | _ => True

/-- An operator's key that is inserted is not registered, or enabled. -/
def Allowed (s : Server W) : Action W → Prop
  | .registerAdminInsert w save _ _ =>
      save = .ok () → ∀ key name, s.inFlight w = some (.insert key name) →
        ∀ k, s.keys[setup.hashKey key]? = some k → k.enabled = true
  | _ => True

/-! ## The file and memory -/

def Keyed (keys : Keys) : Prop :=
  ∀ (h : String) (k : StoredKey), keys[h]? = some k → k.keyHash = h

theorem mem_values_iff {keys : Keys} {k : StoredKey} :
    k ∈ keys.toList.map Prod.snd ↔ ∃ h : String, keys[h]? = some k := by
  rw [List.mem_map]
  constructor
  · rintro ⟨⟨h, k'⟩, hmem, rfl⟩
    exact ⟨h, Std.ExtTreeMap.mem_toList_iff_getElem?_eq_some.mp hmem⟩
  · rintro ⟨h, hk⟩
    exact ⟨(h, k), Std.ExtTreeMap.mem_toList_iff_getElem?_eq_some.mpr hk, rfl⟩

theorem collectKeys_of_perm {keys : Keys} (hkeyed : Keyed keys)
    {l : List StoredKey} (hperm : l.Perm (keys.toList.map Prod.snd)) :
    collectKeys l = keys := by
  have hdistinct : (l.map fun k => (k.keyHash, k)).Pairwise
      fun a b => ¬ compare a.1 b.1 = .eq := by
    have hkeys : ((keys.toList.map Prod.snd).map fun k => (k.keyHash, k)) =
        keys.toList := by
      rw [List.map_map]
      refine (List.map_congr_left ?_).trans (List.map_id _)
      rintro ⟨h, k⟩ hmem
      have hk := Std.ExtTreeMap.mem_toList_iff_getElem?_eq_some.mp hmem
      simp [hkeyed h k hk]
    have hpair := Std.ExtTreeMap.distinct_keys_toList (t := keys)
    rw [← hkeys] at hpair
    refine (List.Perm.pairwise_iff ?_ (hperm.map _)).mpr hpair
    intro a b hne heq
    exact hne (Std.OrientedCmp.eq_symm heq)
  refine Std.ExtTreeMap.ext_getElem? fun h => ?_
  cases hk : keys[h]? with
  | some k =>
      have hmem : (h, k) ∈ l.map fun k => (k.keyHash, k) := by
        refine List.mem_map.mpr ⟨k, ?_, by rw [hkeyed h k hk]⟩
        exact hperm.mem_iff.mpr (mem_values_iff.mpr ⟨h, hk⟩)
      exact Std.ExtTreeMap.getElem?_ofList_of_mem
        (Std.ReflCmp.compare_self) hdistinct hmem
  | none =>
      refine Std.ExtTreeMap.getElem?_ofList_of_contains_eq_false ?_
      rw [Bool.eq_false_iff]
      intro hcontains
      rw [List.contains_iff_mem, List.map_map, List.mem_map] at hcontains
      obtain ⟨k, hkl, heq⟩ := hcontains
      obtain ⟨h', hk'⟩ := mem_values_iff.mp (hperm.mem_iff.mp hkl)
      have hhash := hkeyed h' k hk'
      rw [Function.comp_apply] at heq
      rw [← heq, hhash, hk'] at hk
      contradiction

theorem loadKeys_keysText {keys : Keys} (hkeyed : Keyed keys) :
    loadKeys setup (some (keysText setup keys)) = .ok (keys, false) := by
  have hcollect := collectKeys_of_perm hkeyed
    (List.mergeSort_perm (keys.toList.map Prod.snd) fun a b =>
      decide (a.id ≤ b.id))
  simp only [loadKeys, keysText, setup.startsArray_toVecPretty,
    setup.fromStr_toVecPretty]
  simp [KEYS_FILE_VERSION, hcollect]

/-! ## The keys -/

/-- Keys lie under their hashes, no two have one id, and the disabled ones are
those that were revoked or rotated. -/
structure Registry (keys : Keys) (revoked : List String) : Prop where
  keyed : Keyed keys
  ids : ∀ (h h' : String) (k k' : StoredKey), keys[h]? = some k →
    keys[h']? = some k' → k.id = k'.id → h = h'
  off : ∀ h ∈ revoked, ∃ k, keys[h]? = some k ∧ k.enabled = false
  disabled : ∀ (h : String) (k : StoredKey), keys[h]? = some k →
    k.enabled = false → h ∈ revoked

/-- Every key stays for the tenant it is for, or is an administrator's. -/
def Covers (keys keys' : Keys) : Prop :=
  ∀ (h : String) (k : StoredKey), keys[h]? = some k →
    ∃ k', keys'[h]? = some k' ∧
      (k'.isAdmin = true ∨ k'.isAdmin = k.isAdmin ∧ k'.tenantId = k.tenantId)

theorem forget_eq {a b : StoredKey} (h : a.forget = b.forget) :
    a.keyHash = b.keyHash ∧ a.id = b.id ∧ a.enabled = b.enabled := by
  have hhash := congrArg StoredKey.keyHash h
  have hid := congrArg (fun k : StoredKey => k.id) h
  have henabled := congrArg (fun k : StoredKey => k.enabled) h
  exact ⟨hhash, hid, henabled⟩

theorem getElem?_put (keys : Keys) (h h' : String) (k : StoredKey) :
    (keys.insert h k)[h']? = if h = h' then some k else keys[h']? := by
  rw [Std.ExtTreeMap.getElem?_insert]
  simp

theorem Covers.refl (keys : Keys) : Covers keys keys :=
  fun _ k hk => ⟨k, hk, .inr ⟨rfl, rfl⟩⟩

theorem Covers.trans {a b c : Keys} (hab : Covers a b) (hbc : Covers b c) :
    Covers a c := by
  intro h k hk
  obtain ⟨k₁, hk₁, hcase₁⟩ := hab h k hk
  obtain ⟨k₂, hk₂, hcase₂⟩ := hbc h k₁ hk₁
  refine ⟨k₂, hk₂, ?_⟩
  rcases hcase₂ with hadmin | ⟨hadmin, htenant⟩
  · exact .inl hadmin
  · rw [hadmin, htenant]
    exact hcase₁

theorem covers_put {keys : Keys} {h : String} {k : StoredKey}
    (hold : ∀ k₀, keys[h]? = some k₀ →
      k.isAdmin = true ∨ k.isAdmin = k₀.isAdmin ∧ k.tenantId = k₀.tenantId) :
    Covers keys (keys.insert h k) := by
  intro h' k' hk'
  rw [getElem?_put]
  split
  next heq =>
    rw [← heq] at hk'
    exact ⟨k, rfl, hold k' hk'⟩
  · exact ⟨k', hk', .inr ⟨rfl, rfl⟩⟩

namespace Registry

variable {keys : Keys} {revoked : List String} (hreg : Registry keys revoked)

include hreg

variable {k : StoredKey} {h : String}

theorem register (henabled : k.enabled = true)
    (hold : ∀ k₀, keys[k.keyHash]? = some k₀ → k₀.enabled = true)
    (hid : ∀ (h : String) (k' : StoredKey), keys[h]? = some k' → k'.id ≠ k.id) :
    Registry (keys.insert k.keyHash k) revoked where
  keyed := by
    intro h k' hk'
    rw [getElem?_put] at hk'
    split at hk'
    next heq =>
      rw [← Option.some.inj hk', heq]
    · exact hreg.keyed h k' hk'
  ids := by
    intro h h' k₁ k₂ hk₁ hk₂ heq
    rw [getElem?_put] at hk₁ hk₂
    split at hk₁
    next hh =>
      split at hk₂
      next hh' => exact hh.symm.trans hh'
      · rw [← Option.some.inj hk₁] at heq
        exact absurd heq.symm (hid h' k₂ hk₂)
    · split at hk₂
      next hh' =>
        rw [← Option.some.inj hk₂] at heq
        exact absurd heq (hid h k₁ hk₁)
      · exact hreg.ids h h' k₁ k₂ hk₁ hk₂ heq
  off := by
    intro h hmem
    obtain ⟨k₀, hk₀, hdisabled⟩ := hreg.off h hmem
    rw [getElem?_put]
    split
    next heq =>
      rw [← heq] at hk₀
      rw [hold k₀ hk₀] at hdisabled
      contradiction
    · exact ⟨k₀, hk₀, hdisabled⟩
  disabled := by
    intro h k' hk' hdisabled
    rw [getElem?_put] at hk'
    split at hk'
    · rw [← Option.some.inj hk', henabled] at hdisabled
      contradiction
    · exact hreg.disabled h k' hk' hdisabled

theorem change (hk : keys[h]? = some k) (k' : StoredKey)
    (hhash : k'.keyHash = k.keyHash) (hid : k'.id = k.id)
    {revoked' : List String}
    (hmem : ∀ h', h' ∈ revoked' ↔ h' ∈ revoked ∨ h' = h ∧ k'.enabled = false)
    (henabled : k.enabled = false → k'.enabled = false) :
    Registry (keys.insert h k') revoked' where
  keyed := by
    intro h' k₀ hk₀
    rw [getElem?_put] at hk₀
    split at hk₀
    next heq =>
      rw [← Option.some.inj hk₀, hhash, ← heq]
      exact hreg.keyed h k hk
    · exact hreg.keyed h' k₀ hk₀
  ids := by
    have hback : ∀ (h' : String) (k₀ : StoredKey),
        (keys.insert h k')[h']? = some k₀ →
          ∃ k₁, keys[h']? = some k₁ ∧ k₁.id = k₀.id := by
      intro h' k₀ hk₀
      rw [getElem?_put] at hk₀
      split at hk₀
      next heq =>
        rw [← Option.some.inj hk₀, ← heq]
        exact ⟨k, hk, hid.symm⟩
      · exact ⟨k₀, hk₀, rfl⟩
    intro h₁ h₂ k₁ k₂ hk₁ hk₂ heq
    obtain ⟨k₁', hk₁', hid₁⟩ := hback h₁ k₁ hk₁
    obtain ⟨k₂', hk₂', hid₂⟩ := hback h₂ k₂ hk₂
    exact hreg.ids h₁ h₂ k₁' k₂' hk₁' hk₂' (hid₁.trans (heq.trans hid₂.symm))
  off := by
    intro h' hh'
    rw [getElem?_put]
    split
    next heq =>
      refine ⟨k', rfl, ?_⟩
      rcases (hmem h').mp hh' with hold | ⟨-, hdisabled⟩
      · obtain ⟨k₀, hk₀, hdisabled⟩ := hreg.off h' hold
        rw [← heq, hk] at hk₀
        rw [← Option.some.inj hk₀] at hdisabled
        exact henabled hdisabled
      · exact hdisabled
    next hne =>
      rcases (hmem h').mp hh' with hold | ⟨heq, -⟩
      · exact hreg.off h' hold
      · exact absurd heq.symm hne
  disabled := by
    intro h' k₀ hk₀ hdisabled
    rw [getElem?_put] at hk₀
    split at hk₀
    next heq =>
      rw [← Option.some.inj hk₀] at hdisabled
      exact (hmem h').mpr (.inr ⟨heq.symm, hdisabled⟩)
    · exact (hmem h').mpr (.inl (hreg.disabled h' k₀ hk₀ hdisabled))

theorem disable (hk : keys[h]? = some k) :
    Registry (keys.insert h { k with enabled := false }) (revoked ++ [h]) :=
  hreg.change hk { k with enabled := false } rfl rfl (by simp) fun _ => rfl

theorem touch (hk : keys[h]? = some k) (used : Option ℤ) :
    Registry (keys.insert h { k with lastUsedAt := used }) revoked := by
  refine hreg.change hk { k with lastUsedAt := used } rfl rfl ?_
    fun hdisabled => hdisabled
  intro h'
  constructor
  · exact .inl
  · rintro (hmem | ⟨rfl, hdisabled⟩)
    · exact hmem
    · exact hreg.disabled h' k hk hdisabled

theorem congr {keys' : Keys} (hsame : SameKeys keys keys') :
    Registry keys' revoked := by
  have hback : ∀ (h : String) (k' : StoredKey), keys'[h]? = some k' →
      ∃ k, keys[h]? = some k ∧ k.forget = k'.forget := by
    intro h k' hk'
    have heq := hsame h
    rw [hk', Option.map_some, Option.map_eq_some_iff] at heq
    exact heq
  refine ⟨?_, ?_, ?_, ?_⟩
  · intro h k' hk'
    obtain ⟨k, hk, heq⟩ := hback h k' hk'
    rw [← (forget_eq heq).1]
    exact hreg.keyed h k hk
  · intro h₁ h₂ k₁' k₂' hk₁' hk₂' hid
    obtain ⟨k₁, hk₁, heq₁⟩ := hback h₁ k₁' hk₁'
    obtain ⟨k₂, hk₂, heq₂⟩ := hback h₂ k₂' hk₂'
    have hid₁ := (forget_eq heq₁).2.1
    have hid₂ := (forget_eq heq₂).2.1
    exact hreg.ids h₁ h₂ k₁ k₂ hk₁ hk₂ (hid₁.trans (hid.trans hid₂.symm))
  · intro h hmem
    obtain ⟨k, hk, hdisabled⟩ := hreg.off h hmem
    have heq := (hsame h).symm
    rw [hk, Option.map_some, Option.map_eq_some_iff] at heq
    obtain ⟨k', hk', heq⟩ := heq
    exact ⟨k', hk', (forget_eq heq).2.2.trans hdisabled⟩
  · intro h k' hk' hdisabled
    obtain ⟨k, hk, heq⟩ := hback h k' hk'
    exact hreg.disabled h k hk ((forget_eq heq).2.2.trans hdisabled)

end Registry

/-! ## The server -/

/-- What holds between the steps of calls. -/
structure Sound (s : Server W) : Prop where
  saved : Saved setup s
  registry : Registry s.keys s.revoked
  flight : ∀ w key tenant,
    s.inFlight w = some (.touch key tenant) ∨
      s.inFlight w = some (.choose key tenant) →
    ∃ k, s.keys[setup.hashKey key]? = some k ∧
      (k.isAdmin = true ∨ k.tenantId = tenant)

variable {setup} {s : Server W}

theorem Sound.gone (hs : Sound setup s) : Gone setup s := by
  intro raw now hmem
  obtain ⟨k, hk, hdisabled⟩ := hs.registry.off _ hmem
  rw [Server.live, hk]
  simp [StoredKey.isLive, hdisabled]

theorem Sound.write (hs : Sound setup s) {keys : Keys} {revoked : List String}
    (hreg : Registry keys revoked) (hcovers : Covers s.keys keys)
    {inFlight : W → Option Phase}
    (hflight : ∀ w phase, inFlight w = some phase → s.inFlight w = some phase) :
    Sound setup
      { s with
        keys := keys
        file := some (keysText setup keys)
        inFlight := inFlight
        revoked := revoked } where
  saved := ⟨keys, loadKeys_keysText setup hreg.keyed, fun _ => rfl⟩
  registry := hreg
  flight := by
    intro w key tenant hw
    have hold := hs.flight w key tenant
      (hw.imp (fun h => hflight w _ h) fun h => hflight w _ h)
    obtain ⟨k, hk, hcase⟩ := hold
    obtain ⟨k', hk', hcase'⟩ := hcovers _ k hk
    refine ⟨k', hk', ?_⟩
    rcases hcase' with hadmin | ⟨hadmin, htenant⟩
    · exact .inl hadmin
    · rw [hadmin, htenant]
      exact hcase

theorem findId_eq_some {keys : Keys} {id h : String} {k : StoredKey}
    (hfind : Server.findId keys id = some (h, k)) :
    keys[h]? = some k ∧ k.id = id := by
  have hmem := List.mem_of_find?_eq_some hfind
  have hid := List.find?_some hfind
  exact ⟨Std.ExtTreeMap.mem_toList_iff_getElem?_eq_some.mp hmem,
    by simpa using hid⟩

/-! ## Steps -/

theorem generateKeyId_ne (hex : String) : generateKeyId hex ≠ "" := by
  intro h
  have hlength := congrArg (fun t : String => t.toList.length) h
  simp [generateKeyId] at hlength

theorem update_ok {α : Type} (u : Unit) (change : Keys → α × Keys) :
    s.update setup (.ok u) change =
      (.ok (change s.keys).1,
        { s with
          keys := (change s.keys).2
          file := some (keysText setup (change s.keys).2) }) :=
  rfl

theorem Sound.registerKey (hs : Sound setup s) (save : Save) (hex : String)
    (apiKey : ApiKey) (inFlight : W → Option Phase)
    (hflight : ∀ w phase, inFlight w = some phase → s.inFlight w = some phase)
    (henabled : apiKey.enabled = true)
    (hold : save = .ok () → ∀ k, s.keys[setup.hashKey apiKey.key]? = some k →
      k.enabled = true ∧ apiKey.isAdmin = true)
    (hid : ∀ (h : String) (k : StoredKey), s.keys[h]? = some k →
      k.id ≠ if apiKey.id = "" then generateKeyId hex else apiKey.id) :
    Sound setup
      ({ s with inFlight := inFlight }.registerKey setup save hex apiKey).2 := by
  set id := if apiKey.id = "" then generateKeyId hex else apiKey.id
  cases save with
  | error e =>
      exact
        { saved := hs.saved
          registry := hs.registry
          flight := fun w key tenant hw => hs.flight w key tenant
            (hw.imp (fun h => hflight w _ h) fun h => hflight w _ h) }
  | ok u =>
      have hreg := hs.registry.register (k := StoredKey.fromApiKey setup apiKey id)
        henabled (fun k hk => (hold rfl k hk).1) hid
      refine hs.write hreg (covers_put ?_) hflight
      intro k hk
      exact .inl (hold rfl k hk).2

theorem Sound.createKeyWith (hs : Sound setup s) {save : Save}
    {hex raw tenantId name plan : String} {now : ℤ} {opts : CreateKeyOptions}
    (hfresh : Fresh setup s
      (.createKeyWith save hex raw now tenantId name plan opts)) :
    Sound setup
      (s.createKeyWith setup save hex raw now tenantId name plan opts).2 := by
  obtain ⟨hraw, hid⟩ := hfresh
  refine hs.registerKey save hex _ s.inFlight (fun _ _ h => h) rfl ?_ ?_
  · intro _ k hk
    rw [hraw] at hk
    contradiction
  · rwa [if_neg (generateKeyId_ne hex)]

theorem Sound.revokeKey (hs : Sound setup s) {keyId hash : String}
    {k : StoredKey} (hfind : Server.findId s.keys keyId = some (hash, k)) :
    Sound setup
      { s with
        keys := s.keys.insert hash { k with enabled := false }
        file := some
          (keysText setup (s.keys.insert hash { k with enabled := false }))
        revoked := s.revoked ++ [hash] } := by
  obtain ⟨hk, -⟩ := findId_eq_some hfind
  refine hs.write (hs.registry.disable hk) (covers_put ?_) fun _ _ h => h
  intro k₀ hk₀
  rw [hk] at hk₀
  rw [← Option.some.inj hk₀]
  exact .inr ⟨rfl, rfl⟩

/-- What a rotation makes of a key. -/
def rotation (setup : Setup) (hex raw : String) (now : ℤ) (old : StoredKey) :
    StoredKey :=
  { old with
    id := generateKeyId hex
    keyHash := setup.hashKey raw
    keyPreview := preview raw
    enabled := true
    createdAt := setup.toRfc3339 now
    lastUsedAt := none }

theorem Sound.rotateKey (hs : Sound setup s) {save : Save}
    {hex raw keyId hash : String} {now : ℤ} {old : StoredKey}
    (hfresh : Fresh setup s (.rotateKey save hex raw now keyId))
    (hfind : Server.findId s.keys keyId = some (hash, old)) :
    Sound setup
      { s with
        keys := (s.keys.insert hash { old with enabled := false }).insert
          (setup.hashKey raw) (rotation setup hex raw now old)
        file := some (keysText setup
          ((s.keys.insert hash { old with enabled := false }).insert
            (setup.hashKey raw) (rotation setup hex raw now old)))
        revoked := s.revoked ++ [hash] } := by
  obtain ⟨hraw, hid⟩ := hfresh
  obtain ⟨hk, -⟩ := findId_eq_some hfind
  have hnone : (s.keys.insert hash { old with enabled := false })[
      setup.hashKey raw]? = none := by
    rw [getElem?_put]
    split
    next heq =>
      rw [← heq, hk] at hraw
      contradiction
    · exact hraw
  have hids : ∀ (h : String) (k : StoredKey),
      (s.keys.insert hash { old with enabled := false })[h]? = some k →
        k.id ≠ generateKeyId hex := by
    intro h k hk'
    rw [getElem?_put] at hk'
    split at hk'
    · rw [← Option.some.inj hk']
      exact hid hash old hk
    · exact hid h k hk'
  have hreg := (hs.registry.disable hk).register
    (k := rotation setup hex raw now old) rfl
    (fun k₀ hk₀ => absurd (hnone.symm.trans hk₀) (Option.some_ne_none k₀).symm)
    hids
  refine hs.write hreg (Covers.trans (covers_put ?_) (covers_put ?_))
    fun _ _ h => h
  · intro k₀ hk₀
    rw [hk] at hk₀
    rw [← Option.some.inj hk₀]
    exact .inr ⟨rfl, rfl⟩
  · intro k₀ hk₀
    exact absurd (hnone.symm.trans hk₀) (Option.some_ne_none k₀).symm

/-- Saving the keys as they are. -/
theorem Sound.resave (hs : Sound setup s) :
    Sound setup { s with file := some (keysText setup s.keys) } :=
  hs.write hs.registry (Covers.refl _) fun _ _ h => h

/-- A caller goes on with a key that it found, or is done. -/
theorem Sound.goto [DecidableEq W] (hs : Sound setup s) (w : W) (phase : Option Phase)
    (hphase : ∀ key tenant, phase = some (.touch key tenant) ∨
      phase = some (.choose key tenant) →
        ∃ k, s.keys[setup.hashKey key]? = some k ∧
          (k.isAdmin = true ∨ k.tenantId = tenant)) :
    Sound setup (s.goto w phase) where
  saved := hs.saved
  registry := hs.registry
  flight := by
    intro w' key tenant hw'
    simp only [Server.goto] at hw'
    by_cases hsame : w' = w
    · subst hsame
      rw [Function.update_self] at hw'
      exact hphase key tenant hw'
    · rw [Function.update_of_ne hsame] at hw'
      exact hs.flight w' key tenant hw'

theorem Sound.touch (hs : Sound setup s) (key : String) (now : ℤ) :
    Sound setup (s.touch setup key now) := by
  rw [Server.touch]
  split
  · exact hs
  next k hk =>
    refine ⟨?_, hs.registry.touch hk (some now), ?_⟩
    · obtain ⟨keys, hload, hsame⟩ := hs.saved
      refine ⟨keys, hload, ?_⟩
      intro h
      rw [← hsame h, getElem?_put]
      split
      next heq =>
        rw [← heq, hk]
        rfl
      · rfl
    · intro w key' tenant hw
      obtain ⟨k₀, hk₀, hcase⟩ := hs.flight w key' tenant hw
      dsimp only
      rw [getElem?_put]
      split
      next heq =>
        rw [← heq, hk] at hk₀
        rw [← Option.some.inj hk₀] at hcase
        exact ⟨_, rfl, hcase⟩
      · exact ⟨k₀, hk₀, hcase⟩

/-- The choice of a repository leaves keys, file and callers as they are. -/
theorem Sound.chooseRepo (hs : Sound setup s) (key tenant : String) (now : ℤ) :
    Sound setup (s.chooseRepo setup key tenant now).2 := by
  have hrepos : ∀ repos, Sound setup { s with namespaceRepos := repos } :=
    fun _ => ⟨hs.saved, hs.registry, hs.flight⟩
  rw [Server.chooseRepo]
  split
  · exact hs
  · split
    · exact hs
    · split
      · exact hs
      · rw [Server.namespaceRepo]
        split
        · exact hs
        · split
          · exact hs
          · exact hrepos _

theorem Sound.restart (hs : Sound setup s) (save : Save) :
    Sound setup (s.restart setup save).2 := by
  obtain ⟨keys, hload, hsame⟩ := hs.saved
  rw [Server.restart, hload]
  exact
    { saved := ⟨keys, hload, fun _ => rfl⟩
      registry := hs.registry.congr hsame
      flight := by
        intro w key tenant hw
        rcases hw with hw | hw <;> contradiction }

theorem sound_empty : Sound setup (Server.empty : Server W) where
  saved := ⟨∅, rfl, fun _ => rfl⟩
  registry := by
    refine ⟨?_, ?_, ?_, ?_⟩
    · intro h k hk
      simp [Server.empty] at hk
    · intro h h' k k' hk
      simp [Server.empty] at hk
    · intro h hmem
      contradiction
    · intro h k hk
      simp [Server.empty] at hk
  flight := by
    intro w key tenant hw
    rcases hw with hw | hw <;> contradiction

section Steps

variable [DecidableEq W]

variable {hex raw keyId : String} {now : ℤ} {action : Action W}

theorem call_rotateKey {hash : String} {old : StoredKey} (u : Unit)
    (hfind : Server.findId s.keys keyId = some (hash, old)) :
    s.call setup (.rotateKey (.ok u) hex raw now keyId) =
      (some (.rotated (.ok (some ((rotation setup hex raw now old).issue raw)))),
        { s with
          keys := (s.keys.insert hash { old with enabled := false }).insert
            (setup.hashKey raw) (rotation setup hex raw now old)
          file := some (keysText setup
            ((s.keys.insert hash { old with enabled := false }).insert
              (setup.hashKey raw) (rotation setup hex raw now old)))
          revoked := s.revoked ++ [hash] }) := by
  simp [Server.call, Server.rotateKey, update_ok, hfind, Server.noteRevoked,
    Except.map, rotation]

theorem call_rotateKey_of_none (u : Unit)
    (hfind : Server.findId s.keys keyId = none) :
    s.call setup (.rotateKey (.ok u) hex raw now keyId) =
      (some (.rotated (.ok none)),
        { s with file := some (keysText setup s.keys) }) := by
  simp [Server.call, Server.rotateKey, update_ok, hfind, Except.map]

theorem call_revokeKey {hash : String} {k : StoredKey} (u : Unit)
    (hfind : Server.findId s.keys keyId = some (hash, k)) :
    s.call setup (.revokeKey (.ok u) keyId) =
      (some (.revoked (.ok true)),
        { s with
          keys := s.keys.insert hash { k with enabled := false }
          file := some
            (keysText setup (s.keys.insert hash { k with enabled := false }))
          revoked := s.revoked ++ [hash] }) := by
  simp [Server.call, Server.revokeKey, update_ok, hfind, Server.noteRevoked]

theorem call_revokeKey_of_none (u : Unit)
    (hfind : Server.findId s.keys keyId = none) :
    s.call setup (.revokeKey (.ok u) keyId) =
      (some (.revoked (.ok false)),
        { s with file := some (keysText setup s.keys) }) := by
  simp [Server.call, Server.revokeKey, update_ok, hfind]

theorem sound_step (hs : Sound setup s) (hfresh : Fresh setup s action)
    (hallowed : Allowed setup s action) :
    Sound setup (s.step setup action) := by
  cases action with
  | createKeyWith save hex raw now tenantId name plan opts =>
      exact hs.createKeyWith hfresh
  | rotateKey save hex raw now keyId =>
      cases save with
      | error e => exact hs
      | ok u =>
          cases hfind : Server.findId s.keys keyId with
          | none =>
              rw [Server.step, call_rotateKey_of_none u hfind]
              exact hs.resave
          | some found =>
              rw [Server.step, call_rotateKey u hfind]
              exact hs.rotateKey hfresh hfind
  | revokeKey save keyId =>
      cases save with
      | error e => exact hs
      | ok u =>
          cases hfind : Server.findId s.keys keyId with
          | none =>
              rw [Server.step, call_revokeKey_of_none u hfind]
              exact hs.resave
          | some found =>
              rw [Server.step, call_revokeKey u hfind]
              exact hs.revokeKey hfind
  | registerAdminLookup w key name =>
      simp only [Server.step, Server.call]
      split
      · exact hs
      · split
        · exact hs
        · exact hs.goto w _ (by simp)
  | registerAdminInsert w save hex now =>
      simp only [Server.step, Server.call]
      split
      next key name hphase =>
        refine hs.registerKey save hex _
          (Function.update s.inFlight w none) ?_ rfl ?_ hfresh
        · intro w' phase hw'
          by_cases hsame : w' = w
          · subst hsame
            rw [Function.update_self] at hw'
            contradiction
          · rwa [Function.update_of_ne hsame] at hw'
        · intro hsave k hk
          exact ⟨hallowed hsave key name hphase k hk, rfl⟩
      · exact hs
  | getRepoResolve w apiKey now =>
      simp only [Server.step, Server.call]
      split
      · exact hs
      · exact hs
      next key _ =>
        split
        · exact hs
        next stored hlive =>
          refine hs.goto w _ ?_
          intro key' tenant hphase
          have heq : Phase.touch key stored.tenantId = .touch key' tenant := by
            simpa using hphase
          cases heq
          rw [Server.live, Option.filter_eq_some_iff] at hlive
          exact ⟨stored, hlive.1, .inr rfl⟩
  | getRepoTouch w now =>
      simp only [Server.step, Server.call]
      split
      next key tenant hphase =>
        have htouched := hs.touch key now
        refine htouched.goto w _ ?_
        intro key' tenant' hphase'
        have heq : Phase.choose key tenant = .choose key' tenant' := by
          simpa using hphase'
        cases heq
        refine htouched.flight w key tenant (.inl ?_)
        rw [Server.touch]
        split
        · exact hphase
        · exact hphase
      · exact hs
  | getRepoChoose w now =>
      simp only [Server.step, Server.call]
      split
      next key tenant _ =>
        exact (hs.goto w none (by simp)).chooseRepo key tenant now
      · exact hs
  | restart save => exact hs.restart save

/-- An operator's key that lands on a disabled one authenticates again. -/
theorem not_gone_of_not_allowed (hs : Sound setup s)
    (hallowed : ¬ Allowed setup s action) :
    ¬ Gone setup (s.step setup action) := by
  cases action with
  | registerAdminInsert w save hex now =>
      simp only [Allowed, not_forall] at hallowed
      obtain ⟨rfl, key, name, hphase, k, hk, henabled⟩ := hallowed
      rw [Bool.not_eq_true] at henabled
      have hmem := hs.registry.disabled _ k hk henabled
      intro hgone
      have hlive := hgone key now
      simp only [Server.step, Server.call, hphase] at hlive
      have hnone := hlive hmem
      simp only [Server.registerKey, update_ok, Server.live] at hnone
      rw [StoredKey.fromApiKey, Server.adminKey, getElem?_put,
        if_pos rfl] at hnone
      simp [StoredKey.isLive] at hnone
  | createKeyWith | rotateKey | revokeKey | registerAdminLookup | getRepoResolve
  | getRepoTouch | getRepoChoose | restart => exact absurd trivial hallowed

theorem failed_step {answer : Answer}
    (hanswer : (s.call setup action).1 = some answer)
    (hfailed : answer.Failed) :
    (s.step setup action).keys = s.keys ∧
      (s.step setup action).file = s.file := by
  cases action with
  | createKeyWith save hex raw now tenantId name plan opts =>
      cases save with
      | error e => exact ⟨rfl, rfl⟩
      | ok u =>
          obtain rfl := Option.some.inj hanswer
          obtain ⟨e, he⟩ := hfailed
          contradiction
  | rotateKey save hex raw now keyId =>
      cases save with
      | error e => exact ⟨rfl, rfl⟩
      | ok u =>
          cases hfind : Server.findId s.keys keyId with
          | none =>
              rw [call_rotateKey_of_none u hfind] at hanswer
              obtain rfl := Option.some.inj hanswer
              obtain ⟨e, he⟩ := hfailed
              contradiction
          | some found =>
              rw [call_rotateKey u hfind] at hanswer
              obtain rfl := Option.some.inj hanswer
              obtain ⟨e, he⟩ := hfailed
              contradiction
  | revokeKey save keyId =>
      cases save with
      | error e => exact ⟨rfl, rfl⟩
      | ok u =>
          cases hfind : Server.findId s.keys keyId with
          | none =>
              rw [call_revokeKey_of_none u hfind] at hanswer
              obtain rfl := Option.some.inj hanswer
              obtain ⟨e, he⟩ := hfailed
              contradiction
          | some found =>
              rw [call_revokeKey u hfind] at hanswer
              obtain rfl := Option.some.inj hanswer
              obtain ⟨e, he⟩ := hfailed
              contradiction
  | registerAdminLookup w key name =>
      simp only [Server.step, Server.call]
      split
      · exact ⟨rfl, rfl⟩
      · split
        · exact ⟨rfl, rfl⟩
        · exact ⟨rfl, rfl⟩
  | registerAdminInsert w save hex now =>
      simp only [Server.step, Server.call] at hanswer ⊢
      split at hanswer
      next key name hphase =>
        cases save with
        | error e => exact ⟨rfl, rfl⟩
        | ok u =>
            obtain rfl := Option.some.inj hanswer
            obtain ⟨e, he⟩ := hfailed
            contradiction
      · contradiction
  | getRepoResolve w apiKey now =>
      simp only [Server.call] at hanswer
      split at hanswer
      · contradiction
      · obtain rfl := Option.some.inj hanswer
        exact hfailed.elim
      · split at hanswer
        · obtain rfl := Option.some.inj hanswer
          exact hfailed.elim
        · contradiction
  | getRepoTouch w now =>
      simp only [Server.call] at hanswer
      split at hanswer <;> contradiction
  | getRepoChoose w now =>
      simp only [Server.call] at hanswer
      split at hanswer
      · obtain rfl := Option.some.inj hanswer
        exact hfailed.elim
      · contradiction
  | restart save =>
      obtain rfl := Option.some.inj hanswer
      exact hfailed.elim

theorem rotated_step {save : Save} {new : ApiKey}
    (hanswer : (s.call setup (.rotateKey save hex raw now keyId)).1 =
      some (.rotated (.ok (some new)))) :
    ∃ (hash : String) (old : StoredKey), s.keys[hash]? = some old ∧
      old.id = keyId ∧ SameScope old new := by
  cases save with
  | error e =>
      simp [Server.call, Server.rotateKey, Server.update, Except.map] at hanswer
  | ok u =>
      cases hfind : Server.findId s.keys keyId with
      | none =>
          rw [call_rotateKey_of_none u hfind] at hanswer
          simp at hanswer
      | some found =>
          obtain ⟨hash, old⟩ := found
          obtain ⟨hk, hid⟩ := findId_eq_some hfind
          rw [call_rotateKey u hfind] at hanswer
          have hnew : (rotation setup hex raw now old).issue raw = new := by
            simpa using hanswer
          refine ⟨hash, old, hk, hid, ?_⟩
          rw [← hnew]
          exact ⟨rfl, rfl, rfl, rfl, rfl, rfl⟩

theorem repo_step (hs : Sound setup s) {w : W} {key tenant : String}
    {choice : RepoChoice} (hphase : s.inFlight w = some (.choose key tenant))
    (hanswer : (s.call setup (.getRepoChoose w now)).1 =
      some (.repo (.ok choice))) :
    ∃ stored, s.keys[setup.hashKey key]? = some stored ∧
      (stored.isAdmin ∨ stored.tenantId = setup.tenantId) := by
  simp only [Server.call, hphase, Server.chooseRepo] at hanswer
  split at hanswer
  · simp at hanswer
  next stored hlive =>
    rw [Server.live, Option.filter_eq_some_iff] at hlive
    refine ⟨stored, hlive.1, ?_⟩
    split at hanswer
    · simp at hanswer
    next hcond =>
      obtain ⟨k, hk, hcase⟩ := hs.flight w key tenant (.inr hphase)
      have hsame : k = stored := Option.some.inj (hk.symm.trans hlive.1)
      rw [hsame] at hcase
      rcases hcase with hadmin | htenant
      · exact .inl hadmin
      · by_cases hadmin : stored.isAdmin = true
        · exact .inl hadmin
        · right
          rw [htenant]
          by_contra hne
          exact hcond ⟨by simpa using hadmin, hne⟩

theorem upholds_iff (hs : Sound setup s) (hfresh : Fresh setup s action) :
    Upholds setup s action ↔ Allowed setup s action := by
  constructor
  · intro hupholds
    by_contra hallowed
    exact not_gone_of_not_allowed hs hallowed hupholds.gone
  · intro hallowed
    have hstep := sound_step hs hfresh hallowed
    exact
      { saved := hstep.saved
        gone := hstep.gone
        failed := fun _ hanswer hfailed => failed_step hanswer hfailed
        rotated := by
          rintro save hex raw now keyId new rfl hanswer
          exact rotated_step hanswer
        repo := by
          rintro w now key tenant choice rfl hphase hanswer
          exact repo_step hs hphase hanswer }

end Steps

end Auth

open Auth in
/-- Callers in any interleaving, with saves that fail and restarts: every step
is as promised exactly when no registration of an operator's key lands on one
that is disabled. -/
theorem keys_lifecycle_iff {W : Type} [DecidableEq W] (setup : Setup)
    (actions : List (Action W))
    (hfresh : StepRuns.Throughout (fun s a => Server.step setup s a)
      Server.empty actions (Fresh setup)) :
    StepRuns.Throughout (fun s a => Server.step setup s a) Server.empty actions
        (Upholds setup) ↔
      StepRuns.Throughout (fun s a => Server.step setup s a) Server.empty actions
        (Allowed setup) := by
  have hboth := StepRuns.throughout_congr
    (I := Sound setup) (P := fun s a => Fresh setup s a ∧ Upholds setup s a)
    (A := fun s a => Fresh setup s a ∧ Allowed setup s a)
    (sound_empty (W := W))
    (fun s a hs => and_congr_right fun hf => upholds_iff hs hf)
    (fun s a hs ha => sound_step hs ha.1 ha.2) actions
  rw [StepRuns.throughout_and_iff, StepRuns.throughout_and_iff] at hboth
  exact ⟨fun h => (hboth.mp ⟨hfresh, h⟩).2, fun h => (hboth.mpr ⟨hfresh, h⟩).2⟩

/-! ## Two registrations of one key -/

namespace RegisteredTwice

open Bundles Backend Auth

instance countable_storedKey : Countable StoredKey := by
  refine Function.Injective.countable (f := fun k : StoredKey =>
    ((k.id, k.tenantId, k.name, k.plan, k.enabled, k.createdAt,
      k.commitAgentId), (k.namespaceId, k.canMigrate, k.isAdmin, k.expiresAt,
      k.lastUsedAt, k.keyHash, k.keyPreview))) ?_
  rintro ⟨⟨⟩⟩ ⟨⟨⟩⟩ h
  simp_all

instance countable_keysFile : Countable KeysFile := by
  refine Function.Injective.countable
    (f := fun file : KeysFile => (file.version, file.keys)) ?_
  rintro ⟨⟩ ⟨⟩ h
  simp_all

/-- The text of a file is in braces. -/
noncomputable def setup : Setup where
  hashKey := id
  toRfc3339 := fun _ => ""
  toVecPretty file := "\x7b" ++ (exists_text KeysFile).choose file
  fromStr data :=
    (exists_text KeysFile).choose_spec.choose (String.ofList (data.toList.drop 1))
  fromStr_toVecPretty := by
    intro file
    have h := (exists_text KeysFile).choose_spec.choose_spec file
    simpa using h
  startsArray_toVecPretty := by
    intro file
    simp [startsArray, isWhitespace]
  legacy := fun _ => .error ""
  path := "keys.json"
  tenantId := "default"

def options : CreateKeyOptions where
  commitAgentId := none
  namespaceId := none
  canMigrate := false
  isAdmin := false
  expiresAt := none

/-- Two callers find an operator's key missing; one registers it, it is
revoked, and then the other registers it. -/
def actions : List (Action Bool) :=
  [.registerAdminLookup false "k" "first", .registerAdminLookup true "k" "second",
    .registerAdminInsert true (.ok ()) "1" 0, .revokeKey (.ok ()) "key_1",
    .registerAdminInsert false (.ok ()) "2" 0]

theorem forall_keys_iff {keys : Keys} {P : StoredKey → Prop} :
    (∀ (h : String) (k : StoredKey), keys[h]? = some k → P k) ↔
      ∀ k ∈ keys.toList.map Prod.snd, P k := by
  simp only [mem_values_iff]
  exact ⟨fun h k hk => hk.elim fun h' hk' => h h' k hk',
    fun h h' k hk => h k ⟨h', hk⟩⟩

end RegisteredTwice

open Auth RegisteredTwice in
/-- A key that is created, revoked and loaded again after a restart. -/
theorem keys_lifecycle_created :
    StepRuns.Throughout (fun s a => Server.step setup s a) Server.empty
      ([.createKeyWith (.ok ()) "1" "asg_1" 0 "default" "ci" "free" options,
        .revokeKey (.ok ()) "key_1", .restart (.ok ())] : List (Action Bool))
      (Upholds setup) := by
  refine (keys_lifecycle_iff setup _ ?_).mpr ?_
  · refine StepRuns.throughout_cons_iff.mpr ⟨⟨?_, ?_⟩, ?_⟩
    · simp [Server.empty]
    · simp [Server.empty]
    · simp [StepRuns.throughout_cons_iff, StepRuns.throughout_nil, Fresh]
  · simp [StepRuns.throughout_cons_iff, StepRuns.throughout_nil, Allowed]

open Auth RegisteredTwice in
/-- The key was revoked and authenticates again. -/
theorem revoked_key_registered_again :
    StepRuns.Throughout (fun s a => Server.step setup s a) Server.empty actions
        (Fresh setup) ∧
      (StepRuns.run (fun s a => Server.step setup s a) Server.empty
        (actions.take 4)).revoked = ["k"] ∧
      (StepRuns.run (fun s a => Server.step setup s a) Server.empty
        actions).live setup "k" 0 ≠ none ∧
      ¬ StepRuns.Throughout (fun s a => Server.step setup s a) Server.empty
        actions (Upholds setup) := by
  have hrevoked : (StepRuns.run (fun s a => Server.step setup s a) Server.empty
      actions).revoked = ["k"] := by
    decide
  have hlive : (StepRuns.run (fun s a => Server.step setup s a) Server.empty
      actions).live setup "k" 0 ≠ none := by
    decide
  refine ⟨?_, by decide, hlive, ?_⟩
  · simp only [actions, StepRuns.throughout_cons_iff, StepRuns.throughout_nil,
      Fresh, forall_keys_iff]
    decide
  · intro hupholds
    have hgone : Gone setup (StepRuns.run (fun s a => Server.step setup s a)
        Server.empty actions) :=
      (hupholds (actions.take 4) _ [] rfl).gone
    refine hlive (hgone "k" 0 ?_)
    rw [hrevoked]
    exact List.mem_singleton.mpr rfl

end AgentStateGraph
