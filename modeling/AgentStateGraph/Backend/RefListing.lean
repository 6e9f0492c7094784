import AgentStateGraph.Lib.LikePattern
import AgentStateGraph.Sync.Remotes

/-!
# Listing refs on SQLite

The in-memory backend lists the refs whose names start with a prefix.  SQLite
lists the refs whose names are like the prefix followed by a percent sign, so
underscores and percent signs of the prefix stand for other characters and
letters match in either case.  The two agree exactly where no stored name is
found only that way.
-/

namespace AgentStateGraph

open LikePattern Remotes

variable {Id : Type} [Digest Id]

/-- The refs of a namespace with a selected name, in name order. -/
def Storage.refsWhere (store : Storage Id) (ns : String) (sel : String → Bool) :
    List (String × Id) :=
  (store.refs.toList.filter fun e =>
    (ofLex e.1).1 = ns && sel (ofLex e.1).2).map
      fun e => ((ofLex e.1).2, e.2)

namespace Sqlite

/-- `name LIKE prefix || '%'`. -/
def nameLike (pre name : String) : Bool :=
  like (pre.toList ++ ['%']) name.toList

def listRefs (store : Storage Id) (ns pre : String) :
    Except StorageError (List (String × Id)) :=
  if ns ∈ store.namespaces then .ok (store.refsWhere ns (nameLike pre))
  else .error (.namespaceNotFound ns)

end Sqlite

section Listing

variable (store : Storage Id)

theorem Storage.refsIn_eq_refsWhere (ns pre : String) :
    store.refsIn ns pre = store.refsWhere ns fun name => startsWith name pre :=
  rfl

theorem Storage.mem_refsWhere_iff {ns name : String} {sel : String → Bool}
    {target : Id} :
    (name, target) ∈ store.refsWhere ns sel ↔
      store.refAt ns name = some target ∧ sel name = true := by
  simp only [refsWhere, List.mem_map, List.mem_filter, Bool.and_eq_true,
    decide_eq_true_eq]
  constructor
  · rintro ⟨⟨key, target'⟩, ⟨hmem, hns, hsel⟩, heq⟩
    obtain ⟨rfl, rfl⟩ := Prod.mk.inj heq
    have hkey : toLex (ns, (ofLex key).2) = key := by
      rw [← hns]
      rfl
    refine ⟨?_, hsel⟩
    rw [refAt, hkey]
    exact Std.ExtTreeMap.mem_toList_iff_getElem?_eq_some.mp hmem
  · rintro ⟨href, hsel⟩
    exact ⟨(toLex (ns, name), target),
      ⟨Std.ExtTreeMap.mem_toList_iff_getElem?_eq_some.mpr href, rfl, hsel⟩, rfl⟩

theorem Storage.refsWhere_eq_iff (ns : String) (sel sel' : String → Bool) :
    store.refsWhere ns sel = store.refsWhere ns sel' ↔
      ∀ name target, store.refAt ns name = some target →
        sel name = sel' name := by
  constructor
  · intro heq name target href
    have hmem : (name, target) ∈ store.refsWhere ns sel ↔
        (name, target) ∈ store.refsWhere ns sel' := by rw [heq]
    rw [mem_refsWhere_iff, mem_refsWhere_iff] at hmem
    simp only [href, true_and] at hmem
    exact Bool.eq_iff_iff.mpr hmem
  · intro h
    unfold refsWhere
    congr 1
    refine List.filter_congr ?_
    rintro ⟨key, target⟩ he
    by_cases hns : (ofLex key).1 = ns
    · have hkey : toLex (ns, (ofLex key).2) = key := by
        rw [← hns]
        rfl
      have href : store.refAt ns (ofLex key).2 = some target := by
        rw [refAt, hkey]
        exact Std.ExtTreeMap.mem_toList_iff_getElem?_eq_some.mp he
      rw [h _ _ href]
    · simp [hns]

/-- Every ref of the namespace of whose name some first part is like the
prefix starts with the prefix itself. -/
def NoStray (ns pre : String) : Prop :=
  ns ∈ store.namespaces → ∀ name target, store.refAt ns name = some target →
    (∃ x, x <+: name.toList ∧ like pre.toList x = true) →
      startsWith name pre = true

theorem nameLike_of_startsWith {name pre : String}
    (h : startsWith name pre = true) : Sqlite.nameLike pre name = true :=
  (like_append_percent _ _).mpr
    ⟨pre.toList, (startsWith_iff name pre).mp h, like_self _⟩

theorem noStray_iff (ns pre : String) :
    NoStray store ns pre ↔ (ns ∈ store.namespaces →
      ∀ name target, store.refAt ns name = some target →
        Sqlite.nameLike pre name = startsWith name pre) := by
  refine forall_congr' fun _ => forall_congr' fun name =>
    forall_congr' fun target => forall_congr' fun _ => ?_
  rw [← like_append_percent]
  constructor
  · intro h
    exact Bool.eq_iff_iff.mpr ⟨h, nameLike_of_startsWith⟩
  · intro h hlike
    rw [← h]
    exact hlike

theorem listRefs_eq_iff (ns pre : String) :
    Sqlite.listRefs store ns pre = store.listRefs ns pre ↔
      NoStray store ns pre := by
  rw [noStray_iff, Sqlite.listRefs, Storage.listRefs]
  by_cases hns : ns ∈ store.namespaces
  · rw [if_pos hns, if_pos hns, Except.ok.injEq, Storage.refsIn_eq_refsWhere,
      Storage.refsWhere_eq_iff]
    exact ⟨fun h _ => h, fun h => h hns⟩
  · simp [hns]

theorem listsWhere_sqlite (pre : String) :
    ListsWhere (Sqlite.listRefs : RefLister Id) pre (Sqlite.nameLike pre) := by
  intro store ns hns
  refine ⟨_, if_pos hns, ?_⟩
  intro name t
  exact store.mem_refsWhere_iff

/-! ## Tracking refs -/

theorem removeRemote_sqlite_spec {codec : RemotesCodec} {name : String}
    {stamps : ℕ → Stamp} {existed : Bool} {store store' : Storage Id}
    (h : removeRemote Sqlite.listRefs codec name stamps store =
      (.ok existed, store')) :
    ∃ mid, KeepsOtherRefs store mid ∧ ∀ ns n, store'.refAt ns n =
      if ns ∈ store.namespaces ∧
          Sqlite.nameLike (TRACKING_PREFIX ++ name ++ "/") n = true then none
      else mid.refAt ns n := by
  unfold removeRemote at h
  split at h
  next => cases h
  next =>
    generalize hchange : changeRemotes codec ("remove remote " ++ name)
      (fun remotes => remotes.erase name) stamps store = out at h
    obtain ⟨result, mid⟩ := out
    have hkeeps := changeRemotes_keepsOtherRefs codec
      ("remove remote " ++ name) (fun remotes => remotes.erase name) stamps
      store
    rw [hchange] at hkeeps
    cases result with
    | error e => cases h
    | ok before =>
        dsimp only at h
        have hall : ∀ ns ∈ listNamespaces mid, ns ∈ mid.namespaces := by
          intro ns hns
          exact List.mem_mergeSort.mp hns
        obtain ⟨_, after, hrun, hrefs⟩ :=
          removeTracking_spec (@listsWhere_sqlite Id _ _) _ hall
            (before[name]?).isSome
        rw [hrun] at h
        obtain ⟨-, rfl⟩ := Prod.mk.inj h
        refine ⟨mid, hkeeps, ?_⟩
        intro ns n
        have hsame : ns ∈ listNamespaces mid ↔ ns ∈ store.namespaces := by
          rw [listNamespaces, List.mem_mergeSort, hkeeps.namespaces]
        rw [hrefs]
        simp only [hsame]

/-- Removing the remote deletes only its own tracking refs. -/
def RemovesOwn (name : String) (store store' : Storage Id) : Prop :=
  ∀ ns n, store.refAt ns n ≠ none → store'.refAt ns n = none →
    startsWith n (TRACKING_PREFIX ++ name ++ "/") = true

theorem removesOwn_iff {codec : RemotesCodec} {name : String}
    {stamps : ℕ → Stamp} {existed : Bool} {store store' : Storage Id}
    (h : removeRemote Sqlite.listRefs codec name stamps store =
      (.ok existed, store')) :
    RemovesOwn name store store' ↔
      ∀ ns, NoStray store ns (TRACKING_PREFIX ++ name ++ "/") := by
  obtain ⟨mid, hkeeps, hrefs⟩ := removeRemote_sqlite_spec h
  constructor
  · intro hown ns hns n target href hlike
    have hgone := hrefs ns n
    rw [if_pos ⟨hns, (like_append_percent _ _).mpr hlike⟩] at hgone
    exact hown ns n (by simp [href]) hgone
  · intro hstray ns n hwas hgone
    obtain ⟨target, href⟩ := Option.ne_none_iff_exists'.mp hwas
    rw [hrefs] at hgone
    split at hgone
    next hsel =>
      exact hstray ns hsel.1 n target href
        ((like_append_percent _ _).mp hsel.2)
    next =>
      -- What the listing did not find was there after the list changed.
      exfalso
      by_cases hn : defaultNs = ns ∧ REMOTES_REF = n
      · obtain ⟨rfl, rfl⟩ := hn
        exact hwas (hkeeps.list hgone)
      · rw [hkeeps.refs ns n hn] at hgone
        exact hwas hgone

/-- A commit that a tracking ref of the remote names. -/
def OwnTarget (store : Storage Id) (remote ns : String) (target : Id) : Prop :=
  (∃ n, store.refAt ns n = some target ∧
      startsWith n (trackingRef remote "") = true) ∨
    store.refAt defaultNs (trackingRef remote CONTROL_REF) = some target

theorem getRefIn_eq (store : Storage Id) (ns name : String) :
    getRefIn store ns name =
      .ok (if ns ∈ store.namespaces then store.refAt ns name else none) := by
  unfold getRefIn Storage.getRef
  by_cases hns : ns ∈ store.namespaces
  · simp [hns]
  · simp [hns]

theorem ownTarget_of_mem {store : Storage Id} {remote ns : String}
    {targets : List Id}
    (h : trackingTargets (fun store => store.listRefs) store remote ns =
      .ok targets) {target : Id} (ht : target ∈ targets) :
    OwnTarget store remote ns target := by
  unfold trackingTargets at h
  rw [getRefIn_eq] at h
  obtain ⟨found, hfound, hrest⟩ := Except.bind_eq_ok_iff.mp h
  cases hrest
  rw [List.mem_dedup, List.mem_insertionSort, List.mem_append] at ht
  rcases ht with ht | ht
  · obtain ⟨⟨n, t⟩, hmem, rfl⟩ := List.mem_map.mp ht
    left
    simp only [listRefsIn, Storage.listRefs] at hfound
    by_cases hns : ns ∈ store.namespaces
    · rw [if_pos hns] at hfound
      cases hfound
      exact ⟨n, (store.mem_refsIn_iff).mp hmem⟩
    · rw [if_neg hns] at hfound
      cases hfound
      simp at hmem
  · right
    split at ht
    · exact Option.mem_toList.mp ht
    · simp at ht

/-- SQLite lists the refs that the in-memory backend lists exactly where no
name is like the prefix without starting with it.  With the prefix of a
remote, that is when removing the remote deletes its own refs only, and then
the commits it is known to have are its own. -/
theorem sqlite_listRefs_refines_iff (store : Storage Id) :
    (∀ ns pre, Sqlite.listRefs store ns pre = store.listRefs ns pre ↔
      NoStray store ns pre) ∧
    (∀ codec name stamps existed store',
      removeRemote Sqlite.listRefs codec name stamps store =
        (.ok existed, store') →
      (RemovesOwn name store store' ↔
        ∀ ns, NoStray store ns (TRACKING_PREFIX ++ name ++ "/"))) ∧
    ∀ remote ns targets, NoStray store ns (trackingRef remote "") →
      trackingTargets Sqlite.listRefs store remote ns = .ok targets →
      ∀ target ∈ targets, OwnTarget store remote ns target := by
  refine ⟨listRefs_eq_iff store, ?_, ?_⟩
  · intro codec name stamps existed store' h
    exact removesOwn_iff h
  · intro remote ns targets hstray h target ht
    have hsame : trackingTargets Sqlite.listRefs store remote ns =
        trackingTargets (fun store => store.listRefs) store remote ns := by
      unfold trackingTargets listRefsIn
      rw [(listRefs_eq_iff store ns _).mpr hstray]
    exact ownTarget_of_mem (hsame ▸ h) ht

end Listing

/-! ## Two remotes one underscore apart -/

namespace Underscore

/-- Two remotes with a tracking ref each. -/
def store : Storage ContentKey :=
  ((Storage.new : Storage ContentKey).putRef "default" "remotes/a_b/main"
    (Object.string "one").id).putRef "default" "remotes/axb/main"
    (Object.string "two").id

/-- A list of remotes that is empty, and stays so. -/
def codec : RemotesCodec where
  encode _ := .object []
  decode _ := .ok ∅
  debug name := name

def stamp : Stamp := ⟨0, "i", ""⟩

def removed : Outcome ContentKey Bool :=
  removeRemote Sqlite.listRefs codec "a_b" (fun _ => stamp) store

end Underscore

open Underscore in
/-- The refs of `axb` are found right: no name is like them. -/
theorem sqlite_listRefs_axb :
    NoStray store "default" (trackingRef "axb" "") ∧
      ∃ targets, trackingTargets Sqlite.listRefs store "axb" "default" =
          .ok targets ∧
        ∀ target ∈ targets, OwnTarget store "axb" "default" target := by
  have hstray : NoStray store "default" (trackingRef "axb" "") :=
    ((sqlite_listRefs_refines_iff store).1 "default" _).mp
      (by decide)
  have htargets : trackingTargets Sqlite.listRefs store "axb" "default" =
      .ok [(Object.string "two").id] := by decide
  exact ⟨hstray, _, htargets,
    (sqlite_listRefs_refines_iff store).2.2 "axb" "default" _ hstray htargets⟩

open Underscore in
/-- Listing the refs of `a_b` finds those of `axb`, and removing `a_b`
deletes them. -/
theorem sqlite_listRefs_strays :
    Sqlite.listRefs store "default" "remotes/a_b/" ≠
        store.listRefs "default" "remotes/a_b/" ∧
      removed.1 = .ok true ∧
      store.refAt "default" "remotes/axb/main" ≠ none ∧
      removed.2.refAt "default" "remotes/axb/main" = none ∧
      startsWith "remotes/axb/main" (TRACKING_PREFIX ++ "a_b" ++ "/") =
        false := by
  have hlist : Sqlite.listRefs store "default" "remotes/a_b/" ≠
      store.listRefs "default" "remotes/a_b/" := by decide
  have hok : removed.1 = .ok true := by with_unfolding_all decide
  have hwas : store.refAt "default" "remotes/axb/main" ≠ none := by
    decide
  have hgone : removed.2.refAt "default" "remotes/axb/main" = none := by
    with_unfolding_all decide
  exact ⟨hlist, hok, hwas, hgone, by decide⟩

end AgentStateGraph
