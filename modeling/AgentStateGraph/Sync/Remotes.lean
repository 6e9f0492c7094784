import AgentStateGraph.Sync.Receive

/-!
# Named remotes and their tracking refs

A remote is a name with where it is, kept as a document on a reserved ref.
What a remote was last seen to have is kept in tracking refs, whose names
begin with that of the remote.  They are found by listing refs with a prefix,
and how a backend compares prefixes decides whose refs are found: the listing
is a parameter here.
-/

namespace AgentStateGraph

variable {Id : Type} [Digest Id]

/-- How a backend lists the refs of a namespace by prefix. -/
abbrev RefLister (Id : Type) [Digest Id] :=
  Storage Id → String → String → Except StorageError (List (String × Id))

namespace Remotes

def REMOTES_REF : String := "_control-remotes"

def MAX_ATTEMPTS : ℕ := 64

/-- Where a remote is. -/
structure RemoteConfig where
  url : String
  store : String
  tokenEnv : Option String
deriving DecidableEq

/-- The serialization of the remotes' list, and the debug text of a name. -/
structure RemotesCodec where
  encode : BTreeMap String RemoteConfig → Json
  decode : Json → Except String (BTreeMap String RemoteConfig)
  debug : String → String

def trackingRef (remote name : String) : String :=
  TRACKING_PREFIX ++ remote ++ "/" ++ name

def malformed {α : Type} (what : String) : Except (RepoError Id) α :=
  .error (.invalidOperation ("malformed remotes list: " ++ what))

section Changes

variable (codec : RemotesCodec)

def checkRemoteName (remote : String) : Except (RepoError Id) Unit :=
  if remote = "" || startsWith remote "_" || remote.toList.contains '/' ||
      remote.toList.any isWhitespace then
    .error (.invalidOperation
      ("invalid operation: not a remote name: " ++ codec.debug remote))
  else .ok ()

/-- Every named remote. -/
def remotes (store : Storage Id) :
    Except (RepoError Id) (BTreeMap String RemoteConfig) := do
  let head ← liftStorage (store.getRef defaultNs REMOTES_REF)
  match head with
  | none => .ok ∅
  | some head =>
      match store.getCommit head with
      | none => .error (.commitNotFound (displayId head))
      | some commit =>
          match store.objects.get commit.stateRoot with
          | none => malformed "its tree isn't here"
          | some object => do
              let value ← liftTree (treeToJson store.objects object)
              match codec.decode value with
              | .ok remotes => .ok remotes
              | .error what => malformed what

/-- What a commit of the list takes from its environment. -/
structure Stamp where
  now : ℤ
  intentId : String
  provenance : String

def Stamp.options (stamp : Stamp) (what : String) : CommitOptions where
  agentId := "system"
  intent := ⟨stamp.intentId, .checkpoint, what, [], none⟩
  reasoning := none
  confidence := none
  provenance := stamp.provenance

/-- One try: the list as it was, or nothing when another writer moved it
first. -/
def changeOnce (what : String)
    (change : BTreeMap String RemoteConfig → BTreeMap String RemoteConfig)
    (stamp : Stamp) (store : Storage Id) :
    Outcome Id (Option (BTreeMap String RemoteConfig)) :=
  match liftStorage (store.getRef defaultNs REMOTES_REF) with
  | .error e => (.error e, store)
  | .ok head =>
      match remotes codec store with
      | .error e => (.error e, store)
      | .ok before =>
          if change before = before ∧ head.isSome then (.ok (some before), store)
          else
            let built := jsonToTree store.objects (codec.encode (change before))
            let commit := CommitBuilder.build built.1 head.toList
              (stamp.options what) stamp.now
            let stored := (store.withObjects built.2).putCommit commit
            match liftStorage
                (stored.swapRef defaultNs REMOTES_REF head commit.id) with
            | .error e => (.error e, stored)
            | .ok (landed, moved) =>
                (.ok (if landed then some before else none), moved)

/-- The number counts the attempts that are left. -/
def changeFrom (what : String)
    (change : BTreeMap String RemoteConfig → BTreeMap String RemoteConfig)
    (stamps : ℕ → Stamp) :
    ℕ → Storage Id → Outcome Id (BTreeMap String RemoteConfig)
  | 0, store => (.error .writeConflict, store)
  | left + 1, store =>
      match changeOnce codec what change (stamps left) store with
      | (.error e, store') => (.error e, store')
      | (.ok (some before), store') => (.ok before, store')
      | (.ok none, store') => changeFrom what change stamps left store'

/-- Change the list, and return it as it was before. -/
def changeRemotes (what : String)
    (change : BTreeMap String RemoteConfig → BTreeMap String RemoteConfig)
    (stamps : ℕ → Stamp) (store : Storage Id) :
    Outcome Id (BTreeMap String RemoteConfig) :=
  changeFrom codec what change stamps MAX_ATTEMPTS store

end Changes

/-! ## Removing a remote -/

section Removing

variable (list : RefLister Id)

def listNamespaces (store : Storage Id) : List String :=
  store.namespaces.mergeSort (· ≤ ·)

/-- Delete the listed refs that are still where they were. -/
def deleteListed (ns : String) :
    List (String × Id) → Storage Id → Outcome Id Unit
  | [], store => (.ok (), store)
  | (name, target) :: rest, store =>
      match store.casDeleteRef ns name target with
      | .error e => (.error (.storage e), store)
      | .ok (_, store') => deleteListed ns rest store'

/-- Go through the namespaces; the answer says whether anything was found. -/
def removeTracking (pre : String) :
    List String → Bool → Storage Id → Outcome Id Bool
  | [], existed, store => (.ok existed, store)
  | ns :: rest, existed, store =>
      match list store ns pre with
      | .error e => (.error (.storage e), store)
      | .ok found =>
          match deleteListed ns found store with
          | (.error e, store') => (.error e, store')
          | (.ok (), store') =>
              removeTracking pre rest (existed || !found.isEmpty) store'

def removeRemote (codec : RemotesCodec) (name : String) (stamps : ℕ → Stamp)
    (store : Storage Id) : Outcome Id Bool :=
  match checkRemoteName codec name with
  | .error e => (.error e, store)
  | .ok () =>
      match changeRemotes codec ("remove remote " ++ name)
          (fun remotes => remotes.erase name) stamps store with
      | (.error e, store') => (.error e, store')
      | (.ok before, store') =>
          removeTracking list (TRACKING_PREFIX ++ name ++ "/")
            (listNamespaces store') (before[name]?).isSome store'

/-- A namespace that does not exist has no refs. -/
def listRefsIn (store : Storage Id) (ns pre : String) :
    Except StorageError (List (String × Id)) :=
  match list store ns pre with
  | .error (.namespaceNotFound _) => .ok []
  | other => other

def getRefIn (store : Storage Id) (ns name : String) :
    Except StorageError (Option Id) :=
  match store.getRef ns name with
  | .error (.namespaceNotFound _) => .ok none
  | other => other

/-- The commits a remote is known to have. -/
def trackingTargets (store : Storage Id) (remote ns : String) :
    Except StorageError (List Id) := do
  let found ← listRefsIn list store ns (trackingRef remote "")
  let control ← getRefIn store defaultNs (trackingRef remote CONTROL_REF)
  .ok (((found.map Prod.snd) ++ control.toList).insertionSort (· ≤ ·)).dedup

end Removing

/-! ## What removing a remote leaves -/

/-- No ref but that of the list moved, and that was not deleted. -/
structure KeepsOtherRefs (s t : Storage Id) : Prop where
  namespaces : t.namespaces = s.namespaces
  refs : ∀ ns name, ¬ (defaultNs = ns ∧ REMOTES_REF = name) →
    t.refAt ns name = s.refAt ns name
  list : t.refAt defaultNs REMOTES_REF = none →
    s.refAt defaultNs REMOTES_REF = none

theorem keepsOtherRefs_of_refs {s t : Storage Id}
    (hspaces : t.namespaces = s.namespaces) (hrefs : t.refs = s.refs) :
    KeepsOtherRefs s t := by
  have hsame : ∀ ns name, t.refAt ns name = s.refAt ns name := by
    intro ns name
    rw [Storage.refAt, hrefs]
    rfl
  exact ⟨hspaces, fun ns name _ => hsame ns name,
    fun h => (hsame _ _).symm.trans h⟩

theorem KeepsOtherRefs.refl (s : Storage Id) : KeepsOtherRefs s s :=
  keepsOtherRefs_of_refs rfl rfl

theorem KeepsOtherRefs.trans {s t u : Storage Id} (hst : KeepsOtherRefs s t)
    (htu : KeepsOtherRefs t u) : KeepsOtherRefs s u where
  namespaces := htu.namespaces.trans hst.namespaces
  refs ns name h := (htu.refs ns name h).trans (hst.refs ns name h)
  list h := hst.list (htu.list h)

theorem keepsOtherRefs_of_swapRef {s t u : Storage Id} {landed : Bool}
    (hspaces : t.namespaces = s.namespaces) (hrefs : t.refs = s.refs)
    {head : Option Id} {target : Id}
    (h : t.swapRef defaultNs REMOTES_REF head target = .ok (landed, u)) :
    KeepsOtherRefs s u := by
  have hsame : KeepsOtherRefs s t := keepsOtherRefs_of_refs hspaces hrefs
  have hput : KeepsOtherRefs s (t.putRef defaultNs REMOTES_REF target) := by
    refine ⟨hspaces, fun ns name hne => ?_, fun hnone => ?_⟩
    · rw [Storage.refAt_putRef, if_neg hne]
      exact hsame.refs ns name hne
    · simp at hnone
  cases head with
  | none =>
      simp only [Storage.swapRef, Storage.createRef] at h
      split at h
      · split at h
        · cases h
          exact hsame
        · cases h
          exact hput
      · contradiction
  | some head =>
      simp only [Storage.swapRef, Storage.casRef] at h
      split at h
      · split at h
        · cases h
          exact hput
        · cases h
          exact hsame
      · contradiction

theorem changeOnce_keepsOtherRefs (codec : RemotesCodec) (what : String)
    (change : BTreeMap String RemoteConfig → BTreeMap String RemoteConfig)
    (stamp : Stamp) (store : Storage Id) :
    KeepsOtherRefs store (changeOnce codec what change stamp store).2 := by
  unfold changeOnce
  split
  next => exact .refl store
  next head _ =>
    split
    next => exact .refl store
    next before _ =>
      split
      next => exact .refl store
      next =>
        dsimp only
        split
        next => exact keepsOtherRefs_of_refs rfl rfl
        next landed moved hmoved =>
          have hmoved := liftStorage_eq_ok_iff.mp hmoved
          exact keepsOtherRefs_of_swapRef (by rfl) (by rfl) hmoved

theorem changeRemotes_keepsOtherRefs (codec : RemotesCodec) (what : String)
    (change : BTreeMap String RemoteConfig → BTreeMap String RemoteConfig)
    (stamps : ℕ → Stamp) (store : Storage Id) :
    KeepsOtherRefs store (changeRemotes codec what change stamps store).2 := by
  unfold changeRemotes
  induction MAX_ATTEMPTS generalizing store with
  | zero => exact .refl store
  | succ left ih =>
      have hstep := changeOnce_keepsOtherRefs codec what change (stamps left)
        store
      rw [changeFrom]
      split
      next h => rwa [h] at hstep
      next h => rwa [h] at hstep
      next h =>
        rw [h] at hstep
        exact hstep.trans (ih _)

open Classical in
/-- Exactly the refs that are still where they were listed go. -/
theorem deleteListed_spec {ns : String} (found : List (String × Id))
    {store : Storage Id} (hns : ns ∈ store.namespaces) :
    ∃ store', deleteListed ns found store = (.ok (), store') ∧
      store'.namespaces = store.namespaces ∧
      ∀ ns' name, store'.refAt ns' name =
        if ns = ns' ∧ ∃ t, (name, t) ∈ found ∧ store.refAt ns name = some t then
          none
        else store.refAt ns' name := by
  induction found generalizing store with
  | nil => exact ⟨store, rfl, rfl, by simp⟩
  | cons e found ih =>
      obtain ⟨name, target⟩ := e
      by_cases hat : store.refAt ns name = some target
      · obtain ⟨store', hrun, hspaces, hrefs⟩ :=
          @ih (store.eraseRef ns name) hns
        refine ⟨store', ?_, hspaces, ?_⟩
        · rw [deleteListed, Storage.casDeleteRef, if_pos hns, if_pos hat]
          exact hrun
        · intro ns' name'
          rw [hrefs, Storage.refAt_eraseRef, Storage.refAt_eraseRef]
          by_cases hsame : ns = ns' ∧ name = name'
          · obtain ⟨rfl, rfl⟩ := hsame
            simp [hat]
          · by_cases hns' : ns = ns'
            · subst hns'
              have hname : name ≠ name' := fun h => hsame ⟨rfl, h⟩
              simp [hname, Ne.symm hname]
            · simp [hns']
      · obtain ⟨store', hrun, hspaces, hrefs⟩ := ih hns
        refine ⟨store', ?_, hspaces, ?_⟩
        · rw [deleteListed, Storage.casDeleteRef, if_pos hns, if_neg hat]
          exact hrun
        · intro ns' name'
          rw [hrefs]
          refine if_congr ?_ rfl rfl
          refine and_congr_right ?_
          rintro rfl
          constructor
          · rintro ⟨t, ht, href⟩
            exact ⟨t, List.mem_cons_of_mem _ ht, href⟩
          · rintro ⟨t, ht, href⟩
            rcases List.mem_cons.mp ht with heq | ht
            · obtain ⟨rfl, rfl⟩ := Prod.mk.inj heq
              exact absurd href hat
            · exact ⟨t, ht, href⟩

/-- A listing that selects refs by their names. -/
def ListsWhere (list : RefLister Id) (pre : String) (sel : String → Bool) :
    Prop :=
  ∀ store ns, ns ∈ store.namespaces → ∃ found, list store ns pre = .ok found ∧
    ∀ name t, (name, t) ∈ found ↔
      store.refAt ns name = some t ∧ sel name = true

theorem removeTracking_spec {list : RefLister Id} {pre : String}
    {sel : String → Bool} (hlist : ListsWhere list pre sel) (nss : List String)
    {store : Storage Id} (hnss : ∀ ns ∈ nss, ns ∈ store.namespaces)
    (existed : Bool) :
    ∃ existed' store',
      removeTracking list pre nss existed store = (.ok existed', store') ∧
      ∀ ns name, store'.refAt ns name =
        if ns ∈ nss ∧ sel name = true then none else store.refAt ns name := by
  induction nss generalizing store existed with
  | nil => exact ⟨existed, store, rfl, by simp⟩
  | cons ns nss ih =>
      have hns := hnss ns (by simp)
      obtain ⟨found, hfound, hmem⟩ := hlist store ns hns
      obtain ⟨mid, hdel, hspaces, hmid⟩ := deleteListed_spec found hns
      have hrest : ∀ n ∈ nss, n ∈ mid.namespaces := by
        intro n hn
        rw [hspaces]
        exact hnss n (by simp [hn])
      obtain ⟨existed', store', hrun, hrefs⟩ :=
        ih hrest (existed || !found.isEmpty)
      refine ⟨existed', store', ?_, ?_⟩
      · rw [removeTracking, hfound]
        simp only [hdel]
        exact hrun
      · intro ns' name
        rw [hrefs, hmid]
        by_cases hsel : sel name = true
        · by_cases hin : ns' ∈ nss
          · simp [hin, hsel]
          · by_cases hsame : ns = ns'
            · subst hsame
              cases href : store.refAt ns name with
              | none => simp
              | some t => simp [hmem, href, hsel]
            · simp [hin, hsel, hsame, Ne.symm hsame]
        · simp [hsel, hmem]

end Remotes

end AgentStateGraph
