import AgentStateGraph.Control.Merge
import AgentStateGraph.Core.ContentKey

/-!
# The control merge is a join

`merge` refines `Records.join`: from two well-formed control trees it writes
the tree that holds the join of what they say.  The join is commutative,
associative and idempotent, keeps every record, and never takes a taint out of
its resolution or a reminder out of a final state.
-/

namespace AgentStateGraph

namespace Control

variable {Id : Type} [Digest Id]

/-! ## Reading a well-formed tree -/

theorem loadMap_of_get {s : ObjectStore Id} {entries : BTreeMap String Id}
    (h : s.get (Object.map entries).id = some (Object.map entries)) :
    loadMap s (Object.map entries).id = .ok entries := by
  simp only [loadMap, load, h, Except.ok_bind]
  rfl

theorem getElem?_topObject (sections : Sections Id) (kind : Section) :
    (topObject sections).mapEntries[kind.name]? =
      some (Object.map (sections kind)).id := by
  cases kind <;>
    simp only [topObject, Section.all, List.foldl_cons, List.foldl_nil,
      Object.mapEntries_map, Std.ExtTreeMap.getElem?_insert, Section.name,
      compare_eq_iff_eq, String.reduceEq, if_true, if_false]

theorem getElem?_topObject_format (sections : Sections Id) :
    (topObject sections).mapEntries["format"]? =
      some (formatObject : Object Id).id := by
  simp only [topObject, Section.all, List.foldl_cons, List.foldl_nil,
    Object.mapEntries_map, Std.ExtTreeMap.getElem?_insert, Section.name,
    compare_eq_iff_eq, String.reduceEq, if_true, if_false]

theorem topObject_eq (sections : Sections Id) :
    topObject sections = Object.map (topObject sections).mapEntries := rfl

theorem load_of_objects {s : ObjectStore Id} {sections : Sections Id}
    (h : ∀ o ∈ sectionObjects sections, s.get o.id = some o) :
    Sections.load s (topObject sections).id = .ok sections := by
  have htop : loadMap s (topObject sections).id =
      .ok (topObject sections).mapEntries := by
    rw [topObject_eq]
    exact loadMap_of_get (h (topObject sections) (by simp [sectionObjects]))
  have hformat : Control.load s (formatObject : Object Id).id =
      .ok formatObject := by
    simp only [load, h formatObject (by simp [sectionObjects])]
  have hsection : ∀ kind, loadSection s (topObject sections).mapEntries kind =
      .ok (kind, sections kind) := by
    intro kind
    have hmem : Object.map (sections kind) ∈ sectionObjects sections := by
      cases kind <;> simp [sectionObjects, Section.all]
    simp only [loadSection, getElem?_topObject, loadMap_of_get (h _ hmem),
      Except.ok_bind]
  have hmaps : SECTIONS.mapM (loadSection s (topObject sections).mapEntries) =
      .ok (SECTIONS.map fun kind => (kind, sections kind)) :=
    Except.mapM_eq_ok fun kind _ => hsection kind
  simp only [Sections.load, htop, Except.ok_bind, getElem?_topObject_format,
    hformat]
  simp only [formatObject, Except.ok_bind, ne_eq, not_true_eq_false, if_false,
    hmaps, Except.ok.injEq]
  funext kind
  cases kind <;> rfl

/-! ## One section -/

section Loop

variable {codec : ControlCodec Id} {kind : Section}

/-- Two different versions combine; one version stays. -/
def unlessEqual (op : Id → Id → Id) (x y : Id) : Id :=
  if x = y then x else op x y

/-- The conflicts of one record. -/
def conflictsAt (conf : String → Id → Id → List (EpochConflict Id))
    (k : String) : Option Id → Option Id → List (EpochConflict Id)
  | some x, some y => if x = y then [] else conf k x y
  | _, _ => []

/-- When each record that both sides have merges to `op` with the conflicts
`conf`, a section merges to the join of the two maps. -/
theorem mergeSection_eq_ok {op : Id → Id → Id}
    {conf : String → Id → Id → List (EpochConflict Id)}
    {Q : ObjectStore Id → Id → Prop}
    (hQ : ∀ s t v, s ≤ t → Q s v → Q t v)
    {ours theirs : BTreeMap String Id} {store : ObjectStore Id}
    (hrec : ∀ st, store ≤ st → ∀ (k : String) x y, ours[k]? = some x →
      theirs[k]? = some y → x ≠ y →
      ∃ st', mergeRecord codec kind st k x y =
        .ok (op x y, conf k x y, st') ∧ st ≤ st' ∧ Q st' (op x y))
    (conflicts : List (EpochConflict Id)) :
    ∃ st', mergeSection codec kind (ours, conflicts, store) theirs =
        .ok (KeyedJoin.join (unlessEqual op) ours theirs,
          conflicts ++ theirs.toList.flatMap fun e =>
            conflictsAt conf e.1 ours[e.1]? (some e.2), st') ∧
      store ≤ st' ∧
      ∀ (k : String) x y, ours[k]? = some x → theirs[k]? = some y → x ≠ y →
        Q st' (op x y) := by
  have hloop : ∀ (l : List (String × Id)) (m : BTreeMap String Id)
      (cs : List (EpochConflict Id)) (st : ObjectStore Id),
      (l.map Prod.fst).Nodup → (∀ e ∈ l, theirs[e.1]? = some e.2) →
      (∀ e ∈ l, m[e.1]? = ours[e.1]?) → store ≤ st →
      ∃ st', l.foldlM (mergeEntry codec kind) (m, cs, st) =
          .ok (l.foldl (KeyedJoin.joinEntry (unlessEqual op)) m,
            cs ++ l.flatMap fun e =>
              conflictsAt conf e.1 ours[e.1]? (some e.2), st') ∧
        st ≤ st' ∧
        ∀ e ∈ l, ∀ x, ours[e.1]? = some x → x ≠ e.2 → Q st' (op x e.2) := by
    intro l
    induction l with
    | nil =>
        intro m cs st _ _ _ hst
        exact ⟨st, by simp; rfl, le_rfl, by simp⟩
    | cons e l ih =>
        intro m cs st hnodup htheirs hours hst
        rw [List.map_cons, List.nodup_cons] at hnodup
        have hfresh : ∀ e' ∈ l, e'.1 ≠ e.1 := by
          intro e' he' heq
          exact hnodup.1 (List.mem_map.mpr ⟨e', he', heq⟩)
        have hthere := htheirs e (by simp)
        have hhere := hours e (by simp)
        have hrest : ∀ e' ∈ l,
            (KeyedJoin.joinEntry (unlessEqual op) m e)[e'.1]? = ours[e'.1]? := by
          intro e' he'
          rw [KeyedJoin.joinEntry, Std.ExtTreeMap.getElem?_insert]
          simp [(hfresh e' he').symm, hours e' (by simp [he'])]
        -- One step, with the store and the conflicts it leaves.
        have hstep : ∃ st₁, mergeEntry codec kind (m, cs, st) e =
            .ok (KeyedJoin.joinEntry (unlessEqual op) m e,
              cs ++ conflictsAt conf e.1 ours[e.1]? (some e.2), st₁) ∧
            st ≤ st₁ ∧
            ∀ x, ours[e.1]? = some x → x ≠ e.2 → Q st₁ (op x e.2) := by
          cases hm : m[e.1]? with
          | none =>
              rw [hm] at hhere
              refine ⟨st, ?_, le_rfl, by simp [← hhere]⟩
              simp [mergeEntry, hm, ← hhere, conflictsAt, KeyedJoin.joinEntry]
          | some x =>
              rw [hm] at hhere
              by_cases heq : x = e.2
              · refine ⟨st, ?_, le_rfl, ?_⟩
                · have hsame : m.insert e.1 x = m := by
                    apply Std.ExtTreeMap.ext_getElem?
                    intro k
                    rw [Std.ExtTreeMap.getElem?_insert]
                    split
                    next hk =>
                      rw [compare_eq_iff_eq] at hk
                      rw [← hk, hm]
                    next => rfl
                  simp [mergeEntry, hm, ← hhere, conflictsAt, ← heq,
                    unlessEqual, hsame, KeyedJoin.joinEntry]
                · intro x' hx' hne
                  rw [← hhere] at hx'
                  exact absurd (Option.some.inj hx' ▸ heq) hne
              · obtain ⟨st₁, hrun, hle, hgood⟩ :=
                  hrec st hst e.1 x e.2 hhere.symm hthere heq
                refine ⟨st₁, ?_, hle, ?_⟩
                · simp [mergeEntry, hm, ← hhere, conflictsAt, heq, hrun,
                    unlessEqual, KeyedJoin.joinEntry]
                · intro x' hx' _
                  rw [← hhere] at hx'
                  rw [← Option.some.inj hx']
                  exact hgood
        obtain ⟨st₁, hrun, hle, hgood⟩ := hstep
        obtain ⟨st', hruns, hle', hgoods⟩ := ih _ _ st₁ hnodup.2
          (fun e' he' => htheirs e' (by simp [he'])) hrest
          (le_trans hst hle)
        refine ⟨st', ?_, le_trans hle hle', ?_⟩
        · rw [List.foldlM_cons, hrun, Except.ok_bind, hruns]
          simp
        · intro e' he' x hx hne
          rcases List.mem_cons.mp he' with rfl | he'
          · exact hQ _ _ _ hle' (hgood x hx hne)
          · exact hgoods e' he' x hx hne
  obtain ⟨st', hrun, hle, hgood⟩ := hloop theirs.toList ours conflicts store
    (KeyedJoin.nodup_keys theirs)
    (fun e he => Std.ExtTreeMap.mem_toList_iff_getElem?_eq_some.mp he)
    (fun _ _ => rfl) le_rfl
  rw [KeyedJoin.join_eq_foldl]
  refine ⟨st', hrun, hle, ?_⟩
  intro k x y hx hy hne
  exact hgood (k, y) (Std.ExtTreeMap.mem_toList_iff_getElem?_eq_some.mpr hy) x
    hx hne

end Loop

/-! ## One record -/

section Records

variable {codec : ControlCodec Id} {s t : ObjectStore Id}

variable {α ρ : Type} {k : String} {m : BTreeMap String Id}

/-- The rule for records of one kind, once both versions load. -/
theorem pick_fst_eq_pickBy [LinearOrder ρ]
    {load : Id → Except (ControlError Id) α} {rank : α → ρ} {x y : Id} {a b : α}
    (hx : load x = .ok a) (hy : load y = .ok b) :
    (pick (x, rank a) (y, rank b)).1 =
      KeyedJoin.pickBy (rankAt load rank) x y := by
  have hra : rankAt load rank x = (rank a : WithBot ρ) := by
    simp only [rankAt, hx]
  have hrb : rankAt load rank y = (rank b : WithBot ρ) := by
    simp only [rankAt, hy]
  have hlt : toLex (rank a, x) < toLex (rank b, y) ↔
      toLex ((rank a : WithBot ρ), x) < toLex ((rank b : WithBot ρ), y) := by
    simp [Prod.Lex.lt_iff]
  simp only [pick, KeyedJoin.pickBy, hra, hrb, hlt]
  split <;> rfl

omit [Digest Id] in
/-- A rank read in a store is the same in every larger one. -/
theorem rankAt_eq_of_le {load load' : Id → Except (ControlError Id) α}
    {rank : α → ρ} {x : Id} {a : α} (hmono : load x = .ok a → load' x = .ok a)
    (hx : load x = .ok a) : rankAt load' rank x = rankAt load rank x := by
  simp only [rankAt, hx, hmono hx]

/-- The conflicts of two versions of an epoch. -/
def epochConflicts (codec : ControlCodec Id) (s : ObjectStore Id)
    (k : String) (x y : Id) : List (EpochConflict Id) :=
  match loadEpoch codec s x, loadEpoch codec s y with
  | .ok o, .ok t =>
      sealConflict k
        (KeyedJoin.pickBy (rankAt (loadEpoch codec s) epochRank) x y) x o t
  | _, _ => []

theorem mergeRecord_taints (hle : s ≤ t) {x y : Id} {a b : Taint}
    (hx : loadTaint codec s x = .ok a) (hy : loadTaint codec s y = .ok b)
    (k : String) :
    mergeRecord codec .taints t k x y =
      .ok (KeyedJoin.pickBy (rankAt (loadTaint codec s) taintRank) x y, [],
        t) := by
  simp only [mergeRecord, loadTaint_mono hle hx, loadTaint_mono hle hy,
    Except.ok_bind]
  rw [← pick_fst_eq_pickBy hx hy]

theorem mergeRecord_reminders (hle : s ≤ t) {x y : Id} {a b : ReminderEntry}
    (hx : loadReminder codec s x = .ok a)
    (hy : loadReminder codec s y = .ok b) (k : String) :
    mergeRecord codec .reminders t k x y =
      .ok (KeyedJoin.pickBy (rankAt (loadReminder codec s) reminderRank) x y,
        [], t) := by
  simp only [mergeRecord, loadReminder_mono hle hx, loadReminder_mono hle hy,
    Except.ok_bind]
  rw [← pick_fst_eq_pickBy hx hy]

theorem mergeRecord_epochs (hle : s ≤ t) {x y : Id} {a b : EpochRecord Id}
    (hx : loadEpoch codec s x = .ok a) (hy : loadEpoch codec s y = .ok b)
    (k : String) :
    mergeRecord codec .epochs t k x y =
      .ok (KeyedJoin.pickBy (rankAt (loadEpoch codec s) epochRank) x y,
        epochConflicts codec s k x y, t) := by
  simp only [mergeRecord, loadEpoch_mono hle hx, loadEpoch_mono hle hy,
    Except.ok_bind, epochConflicts, hx, hy]
  rw [← pick_fst_eq_pickBy hx hy]

theorem holdsIds_mono (hle : s ≤ t) {ids : List Id}
    (h : HoldsIds codec s ids) : HoldsIds codec t ids := by
  intro o ho
  exact hle _ _ (h o ho)

/-- The union of two memberships. -/
def unionIds (a b : IdSet Id) : IdSet Id :=
  Std.ExtTreeSet.ofList (a.toList ++ b.toList) compare

theorem mem_unionIds {a b : IdSet Id} {x : Id} :
    x ∈ unionIds a b ↔ x ∈ a ∨ x ∈ b := by
  rw [unionIds, Std.ExtTreeSet.mem_ofList, List.contains_iff_mem,
    List.mem_append, Std.ExtTreeSet.mem_toList, Std.ExtTreeSet.mem_toList]

theorem unionIds_comm (a b : IdSet Id) : unionIds a b = unionIds b a := by
  apply Std.ExtTreeSet.ext_mem
  intro x
  rw [mem_unionIds, mem_unionIds, or_comm]

theorem unionIds_assoc (a b c : IdSet Id) :
    unionIds (unionIds a b) c = unionIds a (unionIds b c) := by
  apply Std.ExtTreeSet.ext_mem
  intro x
  simp only [mem_unionIds, or_assoc]

theorem unionIds_self (a : IdSet Id) : unionIds a a = a := by
  apply Std.ExtTreeSet.ext_mem
  intro x
  rw [mem_unionIds, or_self]

theorem mergeRecord_members (hle : s ≤ t) {a b : IdSet Id}
    (ha : HoldsIds codec s a.toList) (hb : HoldsIds codec s b.toList)
    (k : String) :
    ∃ t', mergeRecord codec .members t k (idList codec a.toList).id
        (idList codec b.toList).id =
        .ok ((idList codec (unionIds a b).toList).id, [], t') ∧ t ≤ t' ∧
      HoldsIds codec t' (unionIds a b).toList := by
  refine ⟨(putIds codec t (unionIds a b).toList).2, ?_,
    ObjectStore.le_putAll t _, holdsIds_putIds codec t _⟩
  simp only [mergeRecord, loadIds_of_holds (holdsIds_mono hle ha),
    loadIds_of_holds (holdsIds_mono hle hb), Except.ok_bind]
  rfl

theorem eq_of_idList_eq {a b : IdSet Id} (ha : HoldsIds codec s a.toList)
    (hb : HoldsIds codec s b.toList)
    (h : (idList codec a.toList).id = (idList codec b.toList).id) : a = b := by
  have hload := loadIds_of_holds ha
  rw [h, loadIds_of_holds hb] at hload
  apply Std.ExtTreeSet.ext_mem
  intro x
  rw [← Std.ExtTreeSet.mem_toList, ← Std.ExtTreeSet.mem_toList,
    Except.ok.inj hload]

theorem holdsIds_of_idList_eq {a b : List Id}
    (h : (idList codec a).id = (idList codec b).id)
    (ha : HoldsIds codec s a) : HoldsIds codec s b := by
  have hlist : idList codec a = idList codec b := Object.id_injective h
  have hchunks : chunkObjects codec a = chunkObjects codec b := by
    apply Object.id_injective.list_map
    simpa [idList, Object.list] using hlist
  simp only [HoldsIds, ← hchunks, ← hlist]
  exact ha

/-- The id list of the union of two id lists. -/
def uniteLists (codec : ControlCodec Id) (s : ObjectStore Id) (x y : Id) : Id :=
  match loadIds codec s x, loadIds codec s y with
  | .ok a, .ok b =>
      (idList codec
        (Std.ExtTreeSet.ofList (a ++ b) compare : IdSet Id).toList).id
  | _, _ => x

theorem uniteLists_eq {a b : IdSet Id} (ha : HoldsIds codec s a.toList)
    (hb : HoldsIds codec s b.toList) :
    uniteLists codec s (idList codec a.toList).id (idList codec b.toList).id =
      (idList codec (unionIds a b).toList).id := by
  simp only [uniteLists, loadIds_of_holds ha, loadIds_of_holds hb]
  rfl

theorem unlessEqual_pickBy [LinearOrder ρ] (rank : Id → ρ) :
    unlessEqual (KeyedJoin.pickBy rank) = KeyedJoin.pickBy rank := by
  funext x y
  simp only [unlessEqual]
  split
  next h => rw [← h, KeyedJoin.pickBy_self]
  next => rfl

theorem getElem?_memberLists {x : Records Id} {tree : Id}
    (h : (x.sections codec .members)[k]? = some tree) :
    ∃ ids, x.members[k]? = some ids ∧ tree = (idList codec ids.toList).id := by
  simp only [Records.sections, Std.ExtTreeMap.getElem?_map] at h
  obtain ⟨ids, hids, rfl⟩ := Option.map_eq_some_iff.mp h
  exact ⟨ids, hids, rfl⟩

theorem join_memberLists {x y : Records Id}
    (hx : ∀ (k : String) ids, x.members[k]? = some ids →
      HoldsIds codec s ids.toList)
    (hy : ∀ (k : String) ids, y.members[k]? = some ids →
      HoldsIds codec s ids.toList) :
    KeyedJoin.join (unlessEqual (uniteLists codec s))
        (x.sections codec .members) (y.sections codec .members) =
      (x.join codec s y).sections codec .members := by
  apply Std.ExtTreeMap.ext_getElem?
  intro k
  simp only [KeyedJoin.getElem?_join, Records.sections, Records.join,
    Std.ExtTreeMap.getElem?_map]
  cases hxk : x.members[k]? with
  | none => simp
  | some a =>
      cases hyk : y.members[k]? with
      | none => simp
      | some b =>
          have ha := hx k a hxk
          have hb := hy k b hyk
          simp only [Option.map_some, Option.merge_some_some, unlessEqual,
            Option.some.injEq]
          split
          next heq =>
            have hab := eq_of_idList_eq ha hb heq
            rw [← hab]
            exact congrArg (fun ids : IdSet Id => (idList codec ids.toList).id)
              (unionIds_self a).symm
          next => exact uniteLists_eq ha hb

/-- The differently sealed epochs of two contents. -/
def conflictsOf (codec : ControlCodec Id) (s : ObjectStore Id)
    (x y : Records Id) : List (EpochConflict Id) :=
  y.epochs.toList.flatMap fun e =>
    conflictsAt (epochConflicts codec s) e.1 x.epochs[e.1]? (some e.2)

theorem mergeSection_ranked [LinearOrder ρ] {kind : Section}
    {load : Id → Except (ControlError Id) α} {rank : α → ρ}
    {conf : String → Id → Id → List (EpochConflict Id)}
    {ours theirs : BTreeMap String Id} {r : ObjectStore Id}
    (hours : ∀ (k : String) tree, ours[k]? = some tree →
      ∃ rec, load tree = .ok rec)
    (htheirs : ∀ (k : String) tree, theirs[k]? = some tree →
      ∃ rec, load tree = .ok rec)
    (hrec : ∀ st', r ≤ st' → ∀ (k : String) x y a b, load x = .ok a →
      load y = .ok b → mergeRecord codec kind st' k x y =
        .ok (KeyedJoin.pickBy (rankAt load rank) x y, conf k x y, st'))
    (conflicts : List (EpochConflict Id)) :
    ∃ st', mergeSection codec kind (ours, conflicts, r) theirs =
        .ok (KeyedJoin.join (KeyedJoin.pickBy (rankAt load rank)) ours theirs,
          conflicts ++ theirs.toList.flatMap fun e =>
            conflictsAt conf e.1 ours[e.1]? (some e.2), st') ∧ r ≤ st' := by
  have hloop := @mergeSection_eq_ok Id _ codec kind
    (KeyedJoin.pickBy (rankAt load rank)) conf (fun _ _ => True)
    (fun _ _ _ _ h => h) ours theirs r
    (by
      intro st' hst' k x y hx hy _
      obtain ⟨a, ha⟩ := hours k x hx
      obtain ⟨b, hb⟩ := htheirs k y hy
      exact ⟨st', hrec st' hst' k x y a b ha hb, le_rfl, trivial⟩) conflicts
  rw [unlessEqual_pickBy] at hloop
  obtain ⟨st', hrun, hle, -⟩ := hloop
  exact ⟨st', hrun, hle⟩

theorem flatMap_conflictsAt_nil (ours theirs : BTreeMap String Id) :
    (theirs.toList.flatMap fun e =>
      conflictsAt (fun _ _ _ => []) e.1 ours[e.1]? (some e.2)) =
      ([] : List (EpochConflict Id)) := by
  rw [List.flatMap_eq_nil_iff]
  intro e _
  cases ours[e.1]? with
  | none => rfl
  | some x => simp [conflictsAt]

theorem mergeSection_members {a b : Id} {x y : Records Id}
    (ha : Represents codec s a x) (hb : Represents codec s b y)
    {st : ObjectStore Id} (hst : s ≤ st)
    (conflicts : List (EpochConflict Id)) :
    ∃ st', mergeSection codec .members
        (x.sections codec .members, conflicts, st)
        (y.sections codec .members) =
        .ok ((x.join codec s y).sections codec .members, conflicts, st') ∧
      st ≤ st' ∧
      ∀ (k : String) ids, (x.join codec s y).members[k]? = some ids →
        HoldsIds codec st' ids.toList := by
  have hloop := @mergeSection_eq_ok Id _ codec .members (uniteLists codec s)
    (fun _ _ _ => [])
    (fun s v => ∃ ids, v = (idList codec ids).id ∧ HoldsIds codec s ids)
    (by
      rintro s t v hle ⟨ids, rfl, hids⟩
      exact ⟨ids, rfl, holdsIds_mono hle hids⟩)
    (x.sections codec .members) (y.sections codec .members) st
    (by
      intro st' hst' k u v hu hv _
      obtain ⟨m, hm, rfl⟩ := getElem?_memberLists hu
      obtain ⟨n, hn, rfl⟩ := getElem?_memberLists hv
      have hmi := ha.members k m hm
      have hni := hb.members k n hn
      obtain ⟨t', hrun, hle, hholds⟩ :=
        mergeRecord_members (le_trans hst hst') hmi hni k
      rw [uniteLists_eq hmi hni]
      exact ⟨t', hrun, hle, _, rfl, hholds⟩) conflicts
  rw [join_memberLists ha.members hb.members, flatMap_conflictsAt_nil,
    List.append_nil] at hloop
  obtain ⟨st', hrun, hle, hgood⟩ := hloop
  refine ⟨st', hrun, hle, ?_⟩
  intro k ids hids
  rcases KeyedJoin.getElem?_join_cases hids with
    hx | hy | ⟨m, n, hm, hn, rfl⟩
  · exact holdsIds_mono (le_trans hst hle) (ha.members k ids hx)
  · exact holdsIds_mono (le_trans hst hle) (hb.members k ids hy)
  · have hmi := ha.members k m hm
    have hni := hb.members k n hn
    by_cases heq : (idList codec m.toList).id = (idList codec n.toList).id
    · have hmn := eq_of_idList_eq hmi hni heq
      subst hmn
      have hself : Std.ExtTreeSet.ofList (m.toList ++ m.toList) compare = m :=
        unionIds_self m
      rw [hself]
      exact holdsIds_mono (le_trans hst hle) hmi
    · have hmk : (x.sections codec .members)[k]? =
          some (idList codec m.toList).id := by
        simp [Records.sections, hm]
      have hnk : (y.sections codec .members)[k]? =
          some (idList codec n.toList).id := by
        simp [Records.sections, hn]
      obtain ⟨l, hl, hholds⟩ := hgood k _ _ hmk hnk heq
      rw [uniteLists_eq hmi hni] at hl
      exact holdsIds_of_idList_eq hl.symm hholds

theorem mergeStep_eq_ok {theirs f : Sections Id} {kind : Section}
    {cs cs' : List (EpochConflict Id)}
    (h : mergeSection codec kind (f kind, cs, s) (theirs kind) =
      .ok (m, cs', t)) :
    mergeStep codec theirs (f, cs, s) kind =
      .ok (Function.update f kind m, cs', t) := by
  simp only [mergeStep, h, Except.ok_bind]

theorem mergeSections_eq_ok {a b : Id} {x y : Records Id}
    (ha : Represents codec s a x) (hb : Represents codec s b y) :
    ∃ t, Section.all.foldlM (mergeStep codec (y.sections codec))
        (x.sections codec, [], s) =
        .ok ((x.join codec s y).sections codec, conflictsOf codec s x y, t) ∧
      s ≤ t ∧
      ∀ (k : String) ids, (x.join codec s y).members[k]? = some ids →
        HoldsIds codec t ids.toList := by
  obtain ⟨t₁, hepochs, hle₁⟩ := mergeSection_ranked (r := s)
    ha.readable.epochs hb.readable.epochs
    (fun st hst k u v _ _ hu hv => mergeRecord_epochs hst hu hv k) []
  obtain ⟨t₂, hmembers, hle₂, hholds⟩ := mergeSection_members ha hb hle₁
    (conflictsOf codec s x y)
  have hle₁₂ : s ≤ t₂ := le_trans hle₁ hle₂
  obtain ⟨t₃, hreminders, hle₃⟩ := mergeSection_ranked (r := t₂)
    ha.readable.reminders hb.readable.reminders
    (fun st hst k u v _ _ hu hv =>
      mergeRecord_reminders (le_trans hle₁₂ hst) hu hv k)
    (conflictsOf codec s x y)
  have hle₁₃ : s ≤ t₃ := le_trans hle₁₂ hle₃
  obtain ⟨t₄, htaints, hle₄⟩ := mergeSection_ranked (r := t₃)
    ha.readable.taints hb.readable.taints
    (fun st hst k u v _ _ hu hv =>
      mergeRecord_taints (le_trans hle₁₃ hst) hu hv k)
    (conflictsOf codec s x y)
  rw [flatMap_conflictsAt_nil, List.append_nil] at hreminders htaints
  refine ⟨t₄, ?_, le_trans hle₁₃ hle₄, ?_⟩
  · let f₁ := Function.update (x.sections codec) .epochs
      (x.join codec s y).epochs
    let f₂ := Function.update f₁ .members
      ((x.join codec s y).sections codec .members)
    let f₃ := Function.update f₂ .reminders (x.join codec s y).reminders
    let f₄ := Function.update f₃ .taints (x.join codec s y).taints
    have h₁ : mergeStep codec (y.sections codec) (x.sections codec, [], s)
        .epochs = .ok (f₁, conflictsOf codec s x y, t₁) :=
      mergeStep_eq_ok hepochs
    have h₂ : mergeStep codec (y.sections codec)
        (f₁, conflictsOf codec s x y, t₁) .members =
        .ok (f₂, conflictsOf codec s x y, t₂) :=
      mergeStep_eq_ok hmembers
    have h₃ : mergeStep codec (y.sections codec)
        (f₂, conflictsOf codec s x y, t₂) .reminders =
        .ok (f₃, conflictsOf codec s x y, t₃) :=
      mergeStep_eq_ok hreminders
    have h₄ : mergeStep codec (y.sections codec)
        (f₃, conflictsOf codec s x y, t₃) .taints =
        .ok (f₄, conflictsOf codec s x y, t₄) :=
      mergeStep_eq_ok htaints
    have hsections : f₄ = (x.join codec s y).sections codec := by
      funext kind
      cases kind <;> rfl
    rw [← hsections, Section.all, List.foldlM_cons, h₁, Except.ok_bind,
      List.foldlM_cons, h₂, Except.ok_bind, List.foldlM_cons, h₃,
      Except.ok_bind, List.foldlM_cons, h₄]
    rfl
  · intro k ids hids
    exact holdsIds_mono (le_trans hle₃ hle₄) (hholds k ids hids)

/-! ## The merge refines the join -/

theorem readable_mono (hle : s ≤ t) {x : Records Id}
    (h : x.Readable codec s) : x.Readable codec t := by
  refine ⟨?_, ?_, ?_⟩
  · intro k tree htree
    obtain ⟨r, hr⟩ := h.taints k tree htree
    exact ⟨r, loadTaint_mono hle hr⟩
  · intro k tree htree
    obtain ⟨r, hr⟩ := h.reminders k tree htree
    exact ⟨r, loadReminder_mono hle hr⟩
  · intro k tree htree
    obtain ⟨r, hr⟩ := h.epochs k tree htree
    exact ⟨r, loadEpoch_mono hle hr⟩

theorem join_pickBy_cases [LinearOrder ρ] {rank : Id → ρ}
    {m' : BTreeMap String Id} {tree : Id}
    (h : (KeyedJoin.join (KeyedJoin.pickBy rank) m m')[k]? = some tree) :
    m[k]? = some tree ∨ m'[k]? = some tree := by
  rcases KeyedJoin.getElem?_join_cases h with h | h | ⟨x, y, hx, hy, rfl⟩
  · exact Or.inl h
  · exact Or.inr h
  · rcases KeyedJoin.pickBy_eq_or rank x y with heq | heq
    · rw [heq]
      exact Or.inl hx
    · rw [heq]
      exact Or.inr hy

theorem readable_join {x y : Records Id} (hx : x.Readable codec s)
    (hy : y.Readable codec s) : (x.join codec t y).Readable codec s := by
  refine ⟨?_, ?_, ?_⟩
  · intro k tree htree
    rcases join_pickBy_cases htree with h | h
    · exact hx.taints k tree h
    · exact hy.taints k tree h
  · intro k tree htree
    rcases join_pickBy_cases htree with h | h
    · exact hx.reminders k tree h
    · exact hy.reminders k tree h
  · intro k tree htree
    rcases join_pickBy_cases htree with h | h
    · exact hx.epochs k tree h
    · exact hy.epochs k tree h

theorem records_ext {x y : Records Id} (h₁ : x.taints = y.taints)
    (h₂ : x.reminders = y.reminders) (h₃ : x.epochs = y.epochs)
    (h₄ : x.members = y.members) : x = y := by
  cases x
  cases y
  simp_all

/-- One tree says one thing. -/
theorem represents_unique {a : Id} {x y : Records Id}
    (hx : Represents codec s a x) (hy : Represents codec s a y) : x = y := by
  have hload := load_of_objects hx.objects
  have hload' := load_of_objects hy.objects
  have hroot : (topObject (x.sections codec)).id =
      (topObject (y.sections codec)).id := by
    rw [← Records.root, ← hx.root_eq, hy.root_eq, Records.root]
  rw [hroot, hload'] at hload
  have hsections : y.sections codec = x.sections codec := Except.ok.inj hload
  refine records_ext (congrFun hsections .taints).symm
    (congrFun hsections .reminders).symm (congrFun hsections .epochs).symm ?_
  apply Std.ExtTreeMap.ext_getElem?
  intro k
  have hk : (y.sections codec .members)[k]? = (x.sections codec .members)[k]? :=
    by rw [hsections]
  simp only [Records.sections, Std.ExtTreeMap.getElem?_map] at hk
  cases hxk : x.members[k]? with
  | none => simpa [hxk] using hk.symm
  | some m =>
      cases hyk : y.members[k]? with
      | none => simp [hxk, hyk] at hk
      | some n =>
          simp only [hxk, hyk, Option.map_some, Option.some.injEq] at hk
          rw [eq_of_idList_eq (hy.members k n hyk) (hx.members k m hxk) hk]

theorem join_self (x : Records Id) : x.join codec s x = x := by
  refine records_ext ?_ ?_ ?_ ?_
  · exact KeyedJoin.join_self (KeyedJoin.pickBy_self _) _
  · exact KeyedJoin.join_self (KeyedJoin.pickBy_self _) _
  · exact KeyedJoin.join_self (KeyedJoin.pickBy_self _) _
  · exact KeyedJoin.join_self unionIds_self _

theorem conflictsOf_self (x : Records Id) : conflictsOf codec s x x = [] := by
  rw [conflictsOf, List.flatMap_eq_nil_iff]
  intro e he
  rw [Std.ExtTreeMap.mem_toList_iff_getElem?_eq_some.mp he]
  simp [conflictsAt]

theorem merge_eq_ok {a b : Id} {x y : Records Id}
    (ha : Represents codec s a x) (hb : Represents codec s b y) :
    ∃ t, merge codec s a b =
        .ok (⟨(x.join codec s y).root codec, conflictsOf codec s x y⟩, t) ∧
      s ≤ t ∧
      Represents codec t ((x.join codec s y).root codec)
        (x.join codec s y) := by
  by_cases hab : a = b
  · subst hab
    have hxy := represents_unique ha hb
    subst hxy
    refine ⟨s, ?_, le_rfl, ?_⟩
    · rw [merge, if_pos rfl, join_self, conflictsOf_self, ← ha.root_eq]
    · rw [join_self, ← ha.root_eq]
      exact ha
  · obtain ⟨t, hrun, hle, hmembers⟩ := mergeSections_eq_ok ha hb
    have hloada : Sections.load s a = .ok (x.sections codec) := by
      rw [ha.root_eq]
      exact load_of_objects ha.objects
    have hloadb : Sections.load s b = .ok (y.sections codec) := by
      rw [hb.root_eq]
      exact load_of_objects hb.objects
    have hle' : s ≤ t.putAll (sectionObjects
        ((x.join codec s y).sections codec)) :=
      le_trans hle (ObjectStore.le_putAll t _)
    refine ⟨t.putAll (sectionObjects ((x.join codec s y).sections codec)),
      ?_, hle', ?_⟩
    · simp only [merge, if_neg hab, hloada, hloadb, Except.ok_bind, hrun,
        Sections.write]
      rfl
    · refine ⟨rfl, ?_, ?_, ?_⟩
      · intro o ho
        exact AddressedMap.get_putAll_of_mem Object.id_injective t ho
      · exact readable_mono hle' (readable_join ha.readable hb.readable)
      · intro k ids hids
        exact holdsIds_mono (ObjectStore.le_putAll t _) (hmembers k ids hids)

/-! ## Laws of the join -/

theorem join_comm (x y : Records Id) :
    x.join codec s y = y.join codec s x := by
  refine records_ext ?_ ?_ ?_ ?_
  · exact KeyedJoin.join_comm (KeyedJoin.pickBy_comm _) _ _
  · exact KeyedJoin.join_comm (KeyedJoin.pickBy_comm _) _ _
  · exact KeyedJoin.join_comm (KeyedJoin.pickBy_comm _) _ _
  · exact KeyedJoin.join_comm unionIds_comm _ _

theorem join_assoc (x y z : Records Id) :
    (x.join codec s y).join codec s z = x.join codec s (y.join codec s z) := by
  refine records_ext ?_ ?_ ?_ ?_
  · exact KeyedJoin.join_assoc (KeyedJoin.pickBy_assoc _) _ _ _
  · exact KeyedJoin.join_assoc (KeyedJoin.pickBy_assoc _) _ _ _
  · exact KeyedJoin.join_assoc (KeyedJoin.pickBy_assoc _) _ _ _
  · exact KeyedJoin.join_assoc unionIds_assoc _ _ _

/-- Ranks read in a larger store make the same join. -/
theorem join_of_le (hle : s ≤ t) {x y : Records Id} (hx : x.Readable codec s)
    (hy : y.Readable codec s) : x.join codec t y = x.join codec s y := by
  refine records_ext ?_ ?_ ?_ rfl
  · refine KeyedJoin.join_congr ?_
    intro k u v hu hv
    obtain ⟨a, ha⟩ := hx.taints k u hu
    obtain ⟨b, hb⟩ := hy.taints k v hv
    exact KeyedJoin.pickBy_congr (rankAt_eq_of_le (loadTaint_mono hle) ha)
      (rankAt_eq_of_le (loadTaint_mono hle) hb)
  · refine KeyedJoin.join_congr ?_
    intro k u v hu hv
    obtain ⟨a, ha⟩ := hx.reminders k u hu
    obtain ⟨b, hb⟩ := hy.reminders k v hv
    exact KeyedJoin.pickBy_congr (rankAt_eq_of_le (loadReminder_mono hle) ha)
      (rankAt_eq_of_le (loadReminder_mono hle) hb)
  · refine KeyedJoin.join_congr ?_
    intro k u v hu hv
    obtain ⟨a, ha⟩ := hx.epochs k u hu
    obtain ⟨b, hb⟩ := hy.epochs k v hv
    exact KeyedJoin.pickBy_congr (rankAt_eq_of_le (loadEpoch_mono hle) ha)
      (rankAt_eq_of_le (loadEpoch_mono hle) hb)

theorem represents_mono (hle : s ≤ t) {a : Id} {x : Records Id}
    (h : Represents codec s a x) : Represents codec t a x where
  root_eq := h.root_eq
  objects o ho := hle _ _ (h.objects o ho)
  readable := readable_mono hle h.readable
  members k ids hids := holdsIds_mono hle (h.members k ids hids)

theorem sealConflict_comm {x y w : Id} (hxy : x ≠ y) (hw : w = x ∨ w = y)
    (o t : EpochRecord Id) :
    sealConflict k w x o t = sealConflict k w y t o := by
  simp only [sealConflict]
  cases o.sealHash with
  | none => cases t.sealHash <;> rfl
  | some u =>
      cases t.sealHash with
      | none => rfl
      | some v =>
          by_cases huv : u = v
          · simp [huv]
          · rcases hw with rfl | rfl
            · simp [huv, Ne.symm huv, hxy]
            · simp [huv, Ne.symm huv, Ne.symm hxy]

theorem conflictsOf_comm (x y : Records Id) :
    conflictsOf codec s x y = conflictsOf codec s y x := by
  have hconf : ∀ k u v, u ≠ v → epochConflicts codec s k u v =
      epochConflicts codec s k v u := by
    intro k u v huv
    simp only [epochConflicts]
    cases loadEpoch codec s u with
    | error e => cases loadEpoch codec s v <;> rfl
    | ok o =>
        cases loadEpoch codec s v with
        | error e => rfl
        | ok t =>
            simp only [KeyedJoin.pickBy_comm _ v u]
            exact sealConflict_comm huv (KeyedJoin.pickBy_eq_or _ u v) o t
  have hat : ∀ k u v, conflictsAt (epochConflicts codec s) k u v =
      conflictsAt (epochConflicts codec s) k v u := by
    intro k u v
    cases u with
    | none => cases v <;> rfl
    | some u =>
        cases v with
        | none => rfl
        | some v =>
            by_cases huv : u = v
            · rw [huv]
            · simp [conflictsAt, huv, Ne.symm huv, hconf k u v huv]
  have hnone : ∀ k u, conflictsAt (epochConflicts codec s) k none u = [] :=
    fun _ _ => rfl
  have hnone' : ∀ k u, conflictsAt (epochConflicts codec s) k u none = [] := by
    intro k u
    cases u <;> rfl
  simp only [conflictsOf]
  rw [KeyedJoin.flatMap_toList_comm x.epochs y.epochs hnone hnone']
  simp only [hat]

/-! ## What the merged tree says -/

/-- The tree of a record. -/
def recordAt (store : ObjectStore Id) (root : Id) (kind : Section)
    (id : String) : Option Id :=
  match Sections.load store root with
  | .ok sections => (sections kind)[id]?
  | .error _ => none

/-- The taint with an id is resolved. -/
def TaintResolved (codec : ControlCodec Id) (store : ObjectStore Id)
    (root : Id) (id : String) : Prop :=
  ∃ tree t, recordAt store root .taints id = some tree ∧
    loadTaint codec store tree = .ok t ∧ t.resolvedAt.isSome = true

def ReminderEntry.isClosed : ReminderEntry → Bool
  | .deleted _ => true
  | .live reminder _ => reminder.status.isTerminal

/-- The reminder with an id is terminal or deleted. -/
def ReminderClosed (codec : ControlCodec Id) (store : ObjectStore Id)
    (root : Id) (id : String) : Prop :=
  ∃ tree r, recordAt store root .reminders id = some tree ∧
    loadReminder codec store tree = .ok r ∧
    ReminderEntry.isClosed r = true

/-- A commit belongs to an epoch. -/
def IsMember (codec : ControlCodec Id) (store : ObjectStore Id) (root : Id)
    (epoch : String) (commit : Id) : Prop :=
  ∃ tree ids, recordAt store root .members epoch = some tree ∧
    loadIds codec store tree = .ok ids ∧ commit ∈ ids

theorem recordAt_of_represents {a : Id} {x : Records Id}
    (h : Represents codec s a x) (kind : Section) (id : String) :
    recordAt s a kind id = (x.sections codec kind)[id]? := by
  have hload : Sections.load s a = .ok (x.sections codec) := by
    rw [h.root_eq]
    exact load_of_objects h.objects
  simp only [recordAt, hload]

theorem isMember_iff {a : Id} {x : Records Id} (h : Represents codec s a x)
    {epoch : String} {commit : Id} :
    IsMember codec s a epoch commit ↔
      ∃ ids, x.members[epoch]? = some ids ∧ commit ∈ ids := by
  constructor
  · rintro ⟨tree, l, htree, hl, hmem⟩
    rw [recordAt_of_represents h] at htree
    obtain ⟨ids, hids, rfl⟩ := getElem?_memberLists htree
    rw [loadIds_of_holds (h.members epoch ids hids)] at hl
    refine ⟨ids, hids, ?_⟩
    rw [← Std.ExtTreeSet.mem_toList, Except.ok.inj hl]
    exact hmem
  · rintro ⟨ids, hids, hmem⟩
    refine ⟨_, _, ?_, loadIds_of_holds (h.members epoch ids hids), ?_⟩
    · rw [recordAt_of_represents h]
      simp [Records.sections, hids]
    · exact Std.ExtTreeSet.mem_toList.mpr hmem

/-- In a join by rank, a side whose record ranks at least `r` makes the joined
record rank at least `r`. -/
theorem exists_join_rank_le [LinearOrder ρ]
    {load : Id → Except (ControlError Id) α} (rank : α → ρ)
    {m' : BTreeMap String Id} {tree : Id} {a : α}
    (hm : ∀ (k : String) tree, m[k]? = some tree → ∃ r, load tree = .ok r)
    (hm' : ∀ (k : String) tree, m'[k]? = some tree → ∃ r, load tree = .ok r)
    (htree : m[k]? = some tree ∨ m'[k]? = some tree) (ha : load tree = .ok a) :
    ∃ tree' b, (KeyedJoin.join (KeyedJoin.pickBy (rankAt load rank)) m m')[k]? =
        some tree' ∧ load tree' = .ok b ∧ rank a ≤ rank b := by
  have hrank : ∀ {u : Id} {r : α}, load u = .ok r →
      rankAt load rank u = (rank r : WithBot ρ) := by
    intro u r hu
    simp only [rankAt, hu]
  rw [KeyedJoin.getElem?_join]
  cases hu : m[k]? with
  | none =>
      rw [hu] at htree
      rcases htree with h | h
      · contradiction
      · exact ⟨tree, a, by simp [h], ha, le_rfl⟩
  | some u =>
      cases hv : m'[k]? with
      | none =>
          rw [hu, hv] at htree
          rcases htree with h | h
          · exact ⟨tree, a, by simpa using h, ha, le_rfl⟩
          · contradiction
      | some v =>
          obtain ⟨c, hc⟩ := hm k u hu
          obtain ⟨d, hd⟩ := hm' k v hv
          have hle := KeyedJoin.le_rank_pickBy (rankAt load rank) u v
          have hpicked : ∃ b, load (KeyedJoin.pickBy (rankAt load rank) u v) =
              .ok b := by
            rcases KeyedJoin.pickBy_eq_or (rankAt load rank) u v with heq | heq
            · rw [heq]
              exact ⟨c, hc⟩
            · rw [heq]
              exact ⟨d, hd⟩
          obtain ⟨b, hb⟩ := hpicked
          refine ⟨_, b, by simp, hb, ?_⟩
          rw [hrank hb, hrank hc, hrank hd] at hle
          rw [hu, hv] at htree
          rcases htree with h | h
          · obtain rfl : u = tree := Option.some.inj h
            rw [hc] at ha
            rw [← Except.ok.inj ha]
            exact WithBot.coe_le_coe.mp hle.1
          · obtain rfl : v = tree := Option.some.inj h
            rw [hd] at ha
            rw [← Except.ok.inj ha]
            exact WithBot.coe_le_coe.mp hle.2

theorem resolved_of_rank_le {a b : Taint} (h : taintRank a ≤ taintRank b)
    (ha : a.resolvedAt.isSome = true) : b.resolvedAt.isSome = true := by
  rcases Prod.Lex.le_iff.mp h with hlt | ⟨heq, -⟩
  · simp only [taintRank, ofLex_toLex, ha] at hlt
    exact absurd hlt (by simp)
  · simp only [taintRank, ofLex_toLex, ha] at heq
    exact heq.symm

theorem closed_of_rank_le {a b : ReminderEntry}
    (h : reminderRank a ≤ reminderRank b)
    (ha : ReminderEntry.isClosed a = true) :
    ReminderEntry.isClosed b = true := by
  have hfst : (ofLex (reminderRank a)).1 ≤ (ofLex (reminderRank b)).1 := by
    rcases Prod.Lex.le_iff.mp h with hlt | ⟨heq, -⟩
    · exact hlt.le
    · exact heq.le
  have hpos : ∀ r : ReminderEntry, ReminderEntry.isClosed r = true ↔
      1 ≤ (ofLex (reminderRank r)).1 := by
    intro r
    cases r with
    | deleted at_ => simp [ReminderEntry.isClosed, reminderRank]
    | live reminder at_ =>
        cases hterm : reminder.status.isTerminal <;>
          simp [ReminderEntry.isClosed, reminderRank, hterm]
  rw [hpos] at ha ⊢
  exact ha.trans hfst

/-- What a merged tree keeps of the two it came from. -/
structure Keeps (codec : ControlCodec Id) (s : ObjectStore Id) (a b : Id)
    (t : ObjectStore Id) (root : Id) : Prop where
  /-- Every record of either side is there, and no other. -/
  records : ∀ kind id, (recordAt t root kind id).isSome =
    ((recordAt s a kind id).isSome || (recordAt s b kind id).isSome)
  /-- A record is one of the two sides' versions. -/
  versions : ∀ kind id tree, kind ≠ .members →
    recordAt t root kind id = some tree →
    recordAt s a kind id = some tree ∨ recordAt s b kind id = some tree
  members : ∀ epoch commit, IsMember codec t root epoch commit ↔
    IsMember codec s a epoch commit ∨ IsMember codec s b epoch commit
  resolved : ∀ id, TaintResolved codec s a id ∨ TaintResolved codec s b id →
    TaintResolved codec t root id
  closed : ∀ id, ReminderClosed codec s a id ∨ ReminderClosed codec s b id →
    ReminderClosed codec t root id

theorem isSome_join {κ ν : Type} [LinearOrder κ] (op : ν → ν → ν)
    (m m' : BTreeMap κ ν) (k : κ) :
    (KeyedJoin.join op m m')[k]?.isSome = (m[k]?.isSome || m'[k]?.isSome) := by
  rw [KeyedJoin.getElem?_join]
  cases m[k]? <;> cases m'[k]? <;> rfl

theorem isMember_join {x y : Records Id} {epoch : String} {commit : Id} :
    (∃ ids, (x.join codec s y).members[epoch]? = some ids ∧ commit ∈ ids) ↔
      (∃ ids, x.members[epoch]? = some ids ∧ commit ∈ ids) ∨
        ∃ ids, y.members[epoch]? = some ids ∧ commit ∈ ids := by
  have hmerge : (x.join codec s y).members[epoch]? =
      Option.merge unionIds x.members[epoch]? y.members[epoch]? :=
    KeyedJoin.getElem?_join _ _ _ _
  rw [hmerge]
  cases x.members[epoch]? with
  | none => cases y.members[epoch]? <;> simp
  | some m =>
      cases y.members[epoch]? with
      | none => simp
      | some n => simp [mem_unionIds]

theorem keeps_of_represents {a b : Id} {x y : Records Id}
    (ha : Represents codec s a x) (hb : Represents codec s b y) (hle : s ≤ t)
    (hab : Represents codec t ((x.join codec s y).root codec)
      (x.join codec s y)) :
    Keeps codec s a b t ((x.join codec s y).root codec) where
  records kind id := by
    simp only [recordAt_of_represents ha, recordAt_of_represents hb,
      recordAt_of_represents hab]
    cases kind with
    | taints => exact isSome_join _ _ _ _
    | reminders => exact isSome_join _ _ _ _
    | epochs => exact isSome_join _ _ _ _
    | members =>
        simp only [Records.sections, Std.ExtTreeMap.getElem?_map,
          Option.isSome_map]
        exact isSome_join _ _ _ _
  versions kind id tree hkind htree := by
    rw [recordAt_of_represents hab] at htree
    rw [recordAt_of_represents ha, recordAt_of_represents hb]
    cases kind with
    | taints => exact join_pickBy_cases htree
    | reminders => exact join_pickBy_cases htree
    | epochs => exact join_pickBy_cases htree
    | members => exact absurd rfl hkind
  members epoch commit := by
    rw [isMember_iff hab, isMember_iff ha, isMember_iff hb, isMember_join]
  resolved id hid := by
    have hside : ∃ tree r, (x.taints[id]? = some tree ∨
        y.taints[id]? = some tree) ∧ loadTaint codec s tree = .ok r ∧
        r.resolvedAt.isSome = true := by
      rcases hid with ⟨tree, r, htree, hr, hres⟩ | ⟨tree, r, htree, hr, hres⟩
      · rw [recordAt_of_represents ha] at htree
        exact ⟨tree, r, Or.inl htree, hr, hres⟩
      · rw [recordAt_of_represents hb] at htree
        exact ⟨tree, r, Or.inr htree, hr, hres⟩
    obtain ⟨tree, r, htree, hr, hres⟩ := hside
    obtain ⟨tree', r', htree', hr', hrank⟩ := exists_join_rank_le
      taintRank ha.readable.taints hb.readable.taints htree hr
    refine ⟨tree', r', ?_, loadTaint_mono hle hr',
      resolved_of_rank_le hrank hres⟩
    rw [recordAt_of_represents hab]
    exact htree'
  closed id hid := by
    have hside : ∃ tree r, (x.reminders[id]? = some tree ∨
        y.reminders[id]? = some tree) ∧ loadReminder codec s tree = .ok r ∧
        ReminderEntry.isClosed r = true := by
      rcases hid with ⟨tree, r, htree, hr, hcl⟩ | ⟨tree, r, htree, hr, hcl⟩
      · rw [recordAt_of_represents ha] at htree
        exact ⟨tree, r, Or.inl htree, hr, hcl⟩
      · rw [recordAt_of_represents hb] at htree
        exact ⟨tree, r, Or.inr htree, hr, hcl⟩
    obtain ⟨tree, r, htree, hr, hcl⟩ := hside
    obtain ⟨tree', r', htree', hr', hrank⟩ := exists_join_rank_le
      reminderRank ha.readable.reminders hb.readable.reminders
      htree hr
    refine ⟨tree', r', ?_, loadReminder_mono hle hr',
      closed_of_rank_le hrank hcl⟩
    rw [recordAt_of_represents hab]
    exact htree'

/-- Both ways of merging three trees write the same tree. -/
theorem merge_assoc {a b c : Id} {x y z : Records Id} {t₁ t₂ : ObjectStore Id}
    (ha : Represents codec s a x) (hb : Represents codec s b y)
    (hc : Represents codec s c z) (hle₁ : s ≤ t₁) (hle₂ : s ≤ t₂)
    (hab : Represents codec t₁ ((x.join codec s y).root codec)
      (x.join codec s y))
    (hbc : Represents codec t₂ ((y.join codec s z).root codec)
      (y.join codec s z)) :
    ∃ l t₃ r t₄,
      merge codec t₁ ((x.join codec s y).root codec) c = .ok (l, t₃) ∧
      merge codec t₂ a ((y.join codec s z).root codec) = .ok (r, t₄) ∧
      l.root = r.root := by
  obtain ⟨t₃, hl, -, -⟩ := merge_eq_ok hab (represents_mono hle₁ hc)
  obtain ⟨t₄, hr, -, -⟩ := merge_eq_ok (represents_mono hle₂ ha) hbc
  refine ⟨_, t₃, _, t₄, hl, hr, ?_⟩
  have hxy := readable_join (t := s) ha.readable hb.readable
  have hyz := readable_join (t := s) hb.readable hc.readable
  rw [join_of_le hle₁ hxy hc.readable, join_of_le hle₂ ha.readable hyz,
    join_assoc]

/-- On well-formed control trees the merge succeeds, in either order with the
same result, is idempotent and associative, and keeps what either side says. -/
theorem merge_isJoin {a b c : Id} (ha : WellFormed codec s a)
    (hb : WellFormed codec s b) (hc : WellFormed codec s c) :
    ∃ ab t₁, merge codec s a b = .ok (ab, t₁) ∧ s ≤ t₁ ∧
      WellFormed codec t₁ ab.root ∧
      (∃ t, merge codec s b a = .ok (ab, t)) ∧
      merge codec s a a = .ok (⟨a, []⟩, s) ∧
      (∃ bc t₂ l t₃ r t₄, merge codec s b c = .ok (bc, t₂) ∧
        merge codec t₁ ab.root c = .ok (l, t₃) ∧
        merge codec t₂ a bc.root = .ok (r, t₄) ∧ l.root = r.root) ∧
      Keeps codec s a b t₁ ab.root := by
  obtain ⟨x, hx⟩ := ha
  obtain ⟨y, hy⟩ := hb
  obtain ⟨z, hz⟩ := hc
  obtain ⟨t₁, hab, hle₁, hrep₁⟩ := merge_eq_ok hx hy
  obtain ⟨t₂, hbc, hle₂, hrep₂⟩ := merge_eq_ok hy hz
  obtain ⟨t, hba, -, -⟩ := merge_eq_ok hy hx
  obtain ⟨l, t₃, r, t₄, hl, hr, hroot⟩ :=
    merge_assoc hx hy hz hle₁ hle₂ hrep₁ hrep₂
  refine ⟨_, t₁, hab, hle₁, ⟨_, hrep₁⟩, ⟨t, ?_⟩, ?_,
    ⟨_, t₂, l, t₃, r, t₄, hbc, hl, hr, hroot⟩,
    keeps_of_represents hx hy hle₁ hrep₁⟩
  · rw [hba, join_comm y x, conflictsOf_comm y x]
  · rw [merge, if_pos rfl]

end Records

/-! ## Two control trees -/

/-- A text form of keys: numbers in unary, each key closed by a dot. -/
def keyText (k : ContentKey) : List Char :=
  k.code.flatMap (fun n => List.replicate n '1' ++ ['0']) ++ ['.']

def parseKeys : List Char → ℕ → List ℕ → List ContentKey →
    Option (List ContentKey)
  | [], _, _, keys => some keys
  | c :: cs, n, code, keys =>
      if c = '1' then parseKeys cs (n + 1) code keys
      else if c = '0' then parseKeys cs 0 (code ++ [n]) keys
      else if c = '.' then parseKeys cs 0 [] (keys ++ [⟨code⟩])
      else none

theorem parseKeys_number (m n : ℕ) (cs : List Char) (code : List ℕ)
    (keys : List ContentKey) :
    parseKeys (List.replicate n '1' ++ '0' :: cs) m code keys =
      parseKeys cs 0 (code ++ [m + n]) keys := by
  induction n generalizing m with
  | zero => simp [parseKeys]
  | succ n ih =>
      rw [List.replicate_succ, List.cons_append, parseKeys, if_pos rfl, ih]
      congr 3
      omega

theorem parseKeys_numbers (ns code : List ℕ) (cs : List Char)
    (keys : List ContentKey) :
    parseKeys (ns.flatMap (fun n => List.replicate n '1' ++ ['0']) ++ cs) 0
      code keys = parseKeys cs 0 (code ++ ns) keys := by
  induction ns generalizing code with
  | nil => simp
  | cons n ns ih =>
      have hone := parseKeys_number 0 n
        (ns.flatMap (fun n => List.replicate n '1' ++ ['0']) ++ cs) code keys
      simp only [List.flatMap_cons, List.append_assoc, List.cons_append,
        List.nil_append]
      rw [hone, ih]
      simp

theorem parseKeys_keyText (l keys : List ContentKey) :
    parseKeys (l.flatMap keyText) 0 [] keys = some (keys ++ l) := by
  induction l generalizing keys with
  | nil => simp [parseKeys]
  | cons k l ih =>
      rw [List.flatMap_cons, keyText, List.append_assoc, parseKeys_numbers]
      simp [parseKeys, ih]

/-- Two instants, and ids in unary. -/
def sampleCodec : ControlCodec ContentKey where
  taint _ := .error "missing field"
  reminder _ := .error "missing field"
  epoch _ := .error "missing field"
  time text :=
    if text = "1970-01-01T00:00:00+00:00" then .ok 0
    else if text = "1970-01-01T00:00:01+00:00" then .ok 1000000000
    else .error "input contains invalid characters"
  hex l := String.ofList (l.flatMap keyText)
  ids text := parseKeys text.toList 0 [] []
  endsChunk _ := false
  ids_hex l := by
    rw [String.toList_ofList, parseKeys_keyText, List.nil_append]

/-- A reminder deleted at an instant. -/
def deletedReminder (time : String) : Object ContentKey :=
  ContentKey.mapOf [("deleted_at", Object.string time)]

/-- A deleted reminder and one epoch's commits. -/
def sampleRecords (time : String)
    (members : BTreeMap String (IdSet ContentKey)) : Records ContentKey where
  taints := ∅
  reminders := (∅ : BTreeMap String ContentKey).insert "r"
    (deletedReminder time).id
  epochs := ∅
  members := members

/-- The epoch `e` with one commit. -/
def sampleMembers (commit : ContentKey) : BTreeMap String (IdSet ContentKey) :=
  (∅ : BTreeMap String (IdSet ContentKey)).insert "e"
    (Std.ExtTreeSet.ofList [commit] compare)

def ours : Records ContentKey :=
  sampleRecords "1970-01-01T00:00:00+00:00" (sampleMembers ⟨[1]⟩)

def theirs : Records ContentKey :=
  sampleRecords "1970-01-01T00:00:01+00:00" (sampleMembers ⟨[2]⟩)

/-- The objects that hold given records. -/
def sampleObjects (time : String) (commit : ContentKey) :
    List (Object ContentKey) :=
  let ids : IdSet ContentKey := Std.ExtTreeSet.ofList [commit] compare
  [Object.string time, deletedReminder time] ++
    chunkObjects sampleCodec ids.toList ++ [idList sampleCodec ids.toList] ++
    sectionObjects
      ((sampleRecords time (sampleMembers commit)).sections sampleCodec)

def sampleStore : ObjectStore ContentKey :=
  ((AddressedMap.empty : ObjectStore ContentKey).putAll
    (sampleObjects "1970-01-01T00:00:00+00:00" ⟨[1]⟩)).putAll
    (sampleObjects "1970-01-01T00:00:01+00:00" ⟨[2]⟩)

theorem represents_sample {s : ObjectStore ContentKey} {time : String}
    {commit : ContentKey} (instant : ℤ)
    (hs : ∀ o ∈ sampleObjects time commit, s.get o.id = some o)
    (htime : sampleCodec.time time = .ok instant) :
    Represents sampleCodec s
      ((sampleRecords time (sampleMembers commit)).root sampleCodec)
      (sampleRecords time (sampleMembers commit)) := by
  refine ⟨rfl, ?_, ?_, ?_⟩
  · intro o ho
    exact hs o (by simp [sampleObjects, ho])
  · refine ⟨?_, ?_, ?_⟩
    · intro k tree h
      simp [sampleRecords] at h
    · intro k tree h
      simp only [sampleRecords, Std.ExtTreeMap.getElem?_insert] at h
      split at h
      next =>
        rw [← Option.some.inj h]
        have hmap := hs (deletedReminder time) (by simp [sampleObjects])
        have htext := hs (Object.string time) (by simp [sampleObjects])
        refine ⟨.deleted instant, ?_⟩
        have hdoc : loadMap s (deletedReminder time).id =
            .ok (deletedReminder time).mapEntries := loadMap_of_get hmap
        have hfield : (deletedReminder time).mapEntries["deleted_at"]? =
            some (Object.string time : Object ContentKey).id := by
          simp [deletedReminder, ContentKey.mapOf]
        simp only [loadReminder, hdoc, Except.ok_bind, hfield, loadTime,
          loadString, load, htext]
        simp only [Object.string, Except.ok_bind, htime, liftText]
      next => simp at h
    · intro k tree h
      simp [sampleRecords] at h
  · intro k ids h
    simp only [sampleRecords, sampleMembers,
      Std.ExtTreeMap.getElem?_insert] at h
    split at h
    next =>
      rw [← Option.some.inj h]
      intro o ho
      refine hs o ?_
      simp only [sampleObjects, List.mem_append] at ho ⊢
      tauto
    next => simp at h

theorem merge_isJoin_sample :
    ∃ ab t₁, merge sampleCodec sampleStore (ours.root sampleCodec)
        (theirs.root sampleCodec) = .ok (ab, t₁) ∧
      IsMember sampleCodec t₁ ab.root "e" ⟨[1]⟩ ∧
      IsMember sampleCodec t₁ ab.root "e" ⟨[2]⟩ := by
  have hours : Represents sampleCodec sampleStore (ours.root sampleCodec)
      ours := by
    refine represents_sample 0 ?_ rfl
    intro o ho
    exact ObjectStore.le_putAll _ _ o.id o
      (AddressedMap.get_putAll_of_mem Object.id_injective _ ho)
  have htheirs : Represents sampleCodec sampleStore (theirs.root sampleCodec)
      theirs := by
    refine represents_sample 1000000000 ?_ rfl
    intro o ho
    exact AddressedMap.get_putAll_of_mem Object.id_injective _ ho
  obtain ⟨ab, t₁, hrun, -, -, -, -, -, hkeeps⟩ :=
    merge_isJoin ⟨_, hours⟩ ⟨_, htheirs⟩ ⟨_, hours⟩
  refine ⟨ab, t₁, hrun, (hkeeps.members _ _).mpr (Or.inl ?_),
    (hkeeps.members _ _).mpr (Or.inr ?_)⟩
  · rw [isMember_iff hours]
    exact ⟨_, by simp [ours, sampleRecords, sampleMembers]; rfl, by simp⟩
  · rw [isMember_iff htheirs]
    exact ⟨_, by simp [theirs, sampleRecords, sampleMembers]; rfl, by simp⟩

end Control

end AgentStateGraph
