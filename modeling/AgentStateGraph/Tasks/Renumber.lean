import AgentStateGraph.Lib.KeyedJoin
import AgentStateGraph.Tasks.Records

/-!
# Renumbering tasks before a merge

Two sides that add tasks to one plan while apart mint the same ids.  Before
the other side is merged in, this side's colliding tasks move past every id
that either side uses, and the references to them are rewritten.
-/

namespace AgentStateGraph

namespace Tasks

/-- A plan's entries other than its metadata: its tasks, by id. -/
def taskEntries (plan : Json) : List (String × Json) :=
  plan.entries.filter fun e => e.1 ≠ META_KEY

/-- The ids of a plan's tasks. -/
def taskIds (plan : Json) : List String := (taskEntries plan).map Prod.fst

/-- Created at the same time by the same author. -/
def sameTask (a b : Json) : Bool :=
  Json.optBeq (a.get "created_at") (b.get "created_at") &&
    Json.optBeq (a.get "created_by") (b.get "created_by")

/-- A task of this side that the merge base does not have and the other side
has as another task. -/
def collides (theirs : Json) (base : Option Json) (e : String × Json) : Bool :=
  !(base.elim [] taskIds).contains e.1 &&
    match (taskEntries theirs).lookup e.1 with
    | some their => !sameTask e.2 their
    | none => false

/-- The order in which colliding ids are moved: by number, those without one
first, then by the id itself. -/
def moveKey (id : String) : WithBot ℕ ×ₗ String :=
  toLex ((TaskId.number id).elim ⊥ fun n => (n : WithBot ℕ), id)

def colliding (ours theirs : Json) (base : Option Json) : List String :=
  (((taskEntries ours).filter (collides theirs base)).map Prod.fst).mergeSort
    fun a b => moveKey a ≤ moveKey b

/-- The highest number either side uses. -/
def highest (ours theirs : Json) : ℕ :=
  ((taskIds ours ++ taskIds theirs).filterMap TaskId.number).foldr max 0

/-- The new number of the `i`-th colliding task; `u32` addition wraps. -/
def newNumber (ours theirs : Json) (i : ℕ) : ℕ :=
  (highest ours theirs + 1 + i) % 2 ^ 32

/-- What to move in one plan: old ids and new ones. -/
def planMoves (ours theirs : Json) (base : Option Json) :
    List (String × String) :=
  (colliding ours theirs base).zipIdx.map fun e =>
    (e.1, TaskId.new (newNumber ours theirs e.2))

def rename (moves : List (String × String)) (id : String) : Option String :=
  moves.lookup id

def renameParent (moves : List (String × String))
    (fields : List (String × Json)) : List (String × Json) :=
  match fields.lookup "parent_id" with
  | some (.string parent) =>
      match rename moves parent with
      | some new => Json.insertEntry "parent_id" (.string new) fields
      | none => fields
  | _ => fields

def renameBlocker (moves : List (String × String)) (b : Json) : Json :=
  match b.asStr.bind (rename moves) with
  | some new => .string new
  | none => b

def renameBlockers (moves : List (String × String))
    (fields : List (String × Json)) : List (String × Json) :=
  match fields.lookup "blocked_by" with
  | some (.array blockers) =>
      Json.insertEntry "blocked_by"
        (.array (blockers.map (renameBlocker moves))) fields
  | _ => fields

/-- One task with its references rewritten, and its own id when it moves. -/
def moveTask (moves : List (String × String)) (key : String) :
    Json → Json
  | .object fields =>
      let fields := renameBlockers moves (renameParent moves fields)
      let newKey := (rename moves key).getD key
      .object (if newKey = key then fields
        else Json.insertEntry "id" (.string newKey) fields)
  | value => value

/-- The entry a plan's entry becomes. -/
def moveEntry (moves : List (String × String)) (e : String × Json) :
    String × Json :=
  if e.1 = META_KEY then e
  else ((rename moves e.1).getD e.1, moveTask moves e.1 e.2)

/-- The plan with each moved task under its new id, and every reference to a
moved task rewritten. -/
def applyMoves (plan : Json) (moves : List (String × String)) : Json :=
  .object (plan.entries.foldl
    (fun out e =>
      Json.insertEntry (moveEntry moves e).1 (moveEntry moves e).2 out) [])

/-! ## What a renumbering keeps -/

/-- A plan as it is read: a value that `serde_json` builds. -/
structure PlanTree where
  value : Json
  canonical : value.isCanonical = true

/-- The id that a task has after the moves. -/
def image (moves : List (String × String)) (id : String) : String :=
  (rename moves id).getD id

/-- A reference, to the image of what it points to. -/
def relink (image : String → String) : Json → Json
  | .string id => .string (image id)
  | value => value

def relinkAll (image : String → String) : Json → Json
  | .array items => .array (items.map (relink image))
  | value => value

/-- The references of a task and its own id follow the moves; nothing else of
it changes. -/
structure Follows (image : String → String) (id : String)
    (task task' : Json) : Prop where
  value : task.isObject = false → task' = task
  own : task.isObject = true → image id ≠ id →
    task'.get "id" = some (.string (image id))
  kept : image id = id → task'.get "id" = task.get "id"
  parent : task'.get "parent_id" = (task.get "parent_id").map (relink image)
  blockers : task'.get "blocked_by" =
    (task.get "blocked_by").map (relinkAll image)
  fields : ∀ f, f ≠ "id" → f ≠ "parent_id" → f ≠ "blocked_by" →
    task'.get f = task.get f

/-- The ids of the tasks of the merge base. -/
def baseIds (base : Option Json) : List String := base.elim [] taskIds

/-- Moving `moves` in `ours` loses nothing and settles the collisions with
`theirs`. -/
structure LosesNothing (ours theirs : Json) (base : Option Json)
    (moves : List (String × String)) : Prop where
  count : (taskEntries (applyMoves ours moves)).length =
    (taskEntries ours).length
  distinct : (moves.map Prod.snd).Nodup
  unused : ∀ m ∈ moves, m.2 ∉ taskIds ours ∧ m.2 ∉ taskIds theirs
  settled : ∀ id a b, id ∉ baseIds base →
    (id, a) ∈ taskEntries (applyMoves ours moves) →
    (id, b) ∈ taskEntries theirs → sameTask a b = true
  tasks : ∀ id task, (id, task) ∈ taskEntries ours →
    ∃ task', (image moves id, task') ∈ taskEntries (applyMoves ours moves) ∧
      Follows (image moves) id task task'
  metadata : (applyMoves ours moves).get META_KEY = ours.get META_KEY
  again : planMoves (applyMoves ours moves) theirs base = []

/-! ## One task -/

theorem get_object (fields : List (String × Json)) (f : String) :
    (Json.object fields).get f = fields.lookup f := rfl

theorem lookup_renameParent (moves : List (String × String))
    (fields : List (String × Json)) (f : String) :
    (renameParent moves fields).lookup f =
      if f = "parent_id" then
        (fields.lookup "parent_id").map (relink (image moves))
      else fields.lookup f := by
  by_cases hf : f = "parent_id"
  · subst hf
    rw [if_pos rfl]
    simp only [renameParent]
    cases hparent : fields.lookup "parent_id" with
    | none => simp [hparent]
    | some v =>
        cases v with
        | string parent =>
            cases hmove : rename moves parent with
            | none => simp [hmove, hparent, relink, image]
            | some new =>
                simp [hmove, Json.lookup_insertEntry, relink, image]
        | _ => simp [hparent, relink]
  · rw [if_neg hf]
    simp only [renameParent]
    split
    · split
      · rw [Json.lookup_insertEntry, if_neg hf]
      · rfl
    · rfl

theorem renameBlocker_eq (moves : List (String × String)) (b : Json) :
    renameBlocker moves b = relink (image moves) b := by
  cases b with
  | string id =>
      simp only [renameBlocker, Json.asStr, Option.bind_some, relink, image]
      cases rename moves id <;> rfl
  | _ => rfl

theorem lookup_renameBlockers (moves : List (String × String))
    (fields : List (String × Json)) (f : String) :
    (renameBlockers moves fields).lookup f =
      if f = "blocked_by" then
        (fields.lookup "blocked_by").map (relinkAll (image moves))
      else fields.lookup f := by
  have hmap : renameBlocker moves = relink (image moves) := by
    funext b
    exact renameBlocker_eq moves b
  by_cases hf : f = "blocked_by"
  · subst hf
    rw [if_pos rfl]
    simp only [renameBlockers]
    cases hblockers : fields.lookup "blocked_by" with
    | none => simp [hblockers]
    | some v =>
        cases v with
        | array items => simp [Json.lookup_insertEntry, hmap, relinkAll]
        | _ => simp [hblockers, relinkAll]
  · rw [if_neg hf]
    simp only [renameBlockers]
    split
    · rw [Json.lookup_insertEntry, if_neg hf]
    · rfl

/-- A moved task follows the moves. -/
theorem follows_moveTask (moves : List (String × String)) (id : String)
    (task : Json) : Follows (image moves) id task (moveTask moves id task) := by
  cases task with
  | object fields =>
      have hget : ∀ f, f ≠ "id" →
          (moveTask moves id (.object fields)).get f =
            (renameBlockers moves (renameParent moves fields)).lookup f := by
        intro f hf
        simp only [moveTask, get_object]
        split
        · rfl
        · rw [Json.lookup_insertEntry, if_neg hf]
      refine ⟨?_, ?_, ?_, ?_, ?_, ?_⟩
      · intro h
        contradiction
      · intro _ hmoved
        have hne : ¬ (rename moves id).getD id = id := hmoved
        simp only [moveTask, get_object, if_neg hne]
        rw [Json.lookup_insertEntry, if_pos rfl]
        rfl
      · intro hkept
        have heq : (rename moves id).getD id = id := hkept
        simp only [moveTask, get_object, if_pos heq]
        rw [lookup_renameBlockers, if_neg (by decide), lookup_renameParent,
          if_neg (by decide)]
      · rw [hget _ (by decide), lookup_renameBlockers, if_neg (by decide),
          lookup_renameParent, if_pos rfl, get_object]
      · rw [hget _ (by decide), lookup_renameBlockers, if_pos rfl,
          lookup_renameParent, if_neg (by decide), get_object]
      · intro f hid hparent hblockers
        rw [hget f hid, lookup_renameBlockers, if_neg hblockers,
          lookup_renameParent, if_neg hparent, get_object]
  | _ => exact ⟨fun _ => rfl, fun h => by contradiction, fun _ => rfl, rfl, rfl,
      fun _ _ _ _ => rfl⟩

/-! ## The moves -/

theorem pairwise_keys {plan : Json} (h : plan.isCanonical = true) :
    (plan.entries.map Prod.fst).Pairwise (· < ·) := by
  cases plan with
  | object es =>
      simp only [Json.isCanonical, Bool.and_eq_true, decide_eq_true_eq] at h
      exact h.1
  | _ => exact List.Pairwise.nil

theorem nodup_taskIds {plan : Json} (h : plan.isCanonical = true) :
    (taskIds plan).Nodup := by
  have hkeys := (pairwise_keys h).imp (fun hlt => ne_of_lt hlt)
  exact hkeys.sublist (List.filter_sublist.map Prod.fst)

theorem mem_taskIds_of_mem {plan : Json} {id : String} {task : Json}
    (h : (id, task) ∈ taskEntries plan) : id ∈ taskIds plan :=
  List.mem_map_of_mem (f := Prod.fst) h

section Moves

variable {ours theirs : Json} {base : Option Json}

theorem map_fst_planMoves (ours theirs : Json) (base : Option Json) :
    (planMoves ours theirs base).map Prod.fst = colliding ours theirs base := by
  rw [planMoves, List.map_map]
  exact List.zipIdx_map_fst 0 _

theorem map_snd_planMoves (ours theirs : Json) (base : Option Json) :
    (planMoves ours theirs base).map Prod.snd =
      (List.range (colliding ours theirs base).length).map fun i =>
        TaskId.new (newNumber ours theirs i) := by
  rw [planMoves, List.map_map, List.range_eq_range',
    ← List.zipIdx_map_snd 0 (colliding ours theirs base), List.map_map]
  rfl

theorem mem_colliding {id : String} :
    id ∈ colliding ours theirs base ↔
      ∃ task, (id, task) ∈ taskEntries ours ∧
        collides theirs base (id, task) = true := by
  simp only [colliding, List.mem_mergeSort, List.mem_map, List.mem_filter]
  constructor
  · rintro ⟨⟨k, task⟩, hmem, rfl⟩
    exact ⟨task, hmem⟩
  · rintro ⟨task, hmem⟩
    exact ⟨(id, task), hmem, rfl⟩

/-- No id in use has a number above the highest. -/
theorem number_le_highest {id : String} {n : ℕ}
    (hid : id ∈ taskIds ours ++ taskIds theirs)
    (hn : TaskId.number id = some n) : n ≤ highest ours theirs := by
  have hmem : n ∈ (taskIds ours ++ taskIds theirs).filterMap TaskId.number :=
    List.mem_filterMap.mpr ⟨id, hid, hn⟩
  have hmax : ∀ l : List ℕ, n ∈ l → n ≤ l.foldr max 0 := by
    intro l
    induction l with
    | nil => exact fun h => absurd h List.not_mem_nil
    | cons m l ih =>
        intro h
        rw [List.foldr_cons]
        rcases List.mem_cons.mp h with rfl | h
        · exact le_max_left _ _
        · exact (ih h).trans (le_max_right _ _)
  exact hmax _ hmem

/-- A number that does not wrap is used by neither side. -/
theorem new_not_mem {i : ℕ} (hi : highest ours theirs + 1 + i < 2 ^ 32) :
    TaskId.new (newNumber ours theirs i) ∉
      taskIds ours ++ taskIds theirs := by
  intro hmem
  have hnumber : newNumber ours theirs i = highest ours theirs + 1 + i :=
    Nat.mod_eq_of_lt hi
  rw [hnumber] at hmem
  have hle := number_le_highest hmem (TaskId.number_new hi)
  omega

/-- No new number wraps onto an id in use, and there are at most `2 ^ 32`. -/
structure Fits (ours theirs : Json) (base : Option Json) : Prop where
  count : (colliding ours theirs base).length ≤ 2 ^ 32
  free : ∀ i < (colliding ours theirs base).length,
    2 ^ 32 ≤ highest ours theirs + 1 + i →
    TaskId.new (newNumber ours theirs i) ∉ taskIds ours ++ taskIds theirs

theorem newNumber_injOn {k : ℕ} (hk : k ≤ 2 ^ 32) :
    Set.InjOn (newNumber ours theirs) { i | i < k } := by
  intro i hi j hj h
  have hi' : i < k := hi
  have hj' : j < k := hj
  simp only [newNumber] at h
  omega

theorem nodup_new (hk : (colliding ours theirs base).length ≤ 2 ^ 32) :
    ((planMoves ours theirs base).map Prod.snd).Nodup := by
  rw [map_snd_planMoves]
  refine List.Nodup.map_on ?_ List.nodup_range
  intro i hi j hj h
  have hlt : ∀ i, newNumber ours theirs i ∈ { n | n < 2 ^ 32 } :=
    fun i => Nat.mod_lt _ (by decide)
  exact newNumber_injOn hk (List.mem_range.mp hi) (List.mem_range.mp hj)
    (TaskId.new_injective (hlt i) (hlt j) h)

theorem unused_of_fits (h : Fits ours theirs base) {m : String × String}
    (hm : m ∈ planMoves ours theirs base) :
    m.2 ∉ taskIds ours ++ taskIds theirs := by
  have hsnd : m.2 ∈ (planMoves ours theirs base).map Prod.snd :=
    List.mem_map_of_mem hm
  rw [map_snd_planMoves] at hsnd
  obtain ⟨i, hi, hnew⟩ := List.mem_map.mp hsnd
  rw [← hnew]
  by_cases hwrap : 2 ^ 32 ≤ highest ours theirs + 1 + i
  · exact h.free i (List.mem_range.mp hi) hwrap
  · exact new_not_mem (by omega)

theorem fits_of_losesNothing
    (h : LosesNothing ours theirs base (planMoves ours theirs base)) :
    Fits ours theirs base := by
  constructor
  · by_contra hlong
    have hnodup := h.distinct
    rw [map_snd_planMoves] at hnodup
    have hinj := List.inj_on_of_nodup_map hnodup
    have hsame : newNumber ours theirs 0 = newNumber ours theirs (2 ^ 32) := by
      simp only [newNumber]
      omega
    have heq := hinj (List.mem_range.mpr (by omega : 0 < _))
      (List.mem_range.mpr (by omega : 2 ^ 32 < _)) (by rw [hsame])
    exact absurd heq (by decide)
  · intro i hi _
    have hmem : TaskId.new (newNumber ours theirs i) ∈
        (planMoves ours theirs base).map Prod.snd := by
      rw [map_snd_planMoves]
      exact List.mem_map.mpr ⟨i, List.mem_range.mpr hi, rfl⟩
    obtain ⟨m, hm, hnew⟩ := List.mem_map.mp hmem
    rw [← hnew, List.mem_append, not_or]
    exact h.unused m hm

end Moves

/-! ## The plan after the moves -/

theorem insertEntry_perm {key : String} {value : Json}
    {es : List (String × Json)} (h : key ∉ es.map Prod.fst) :
    (Json.insertEntry key value es).Perm ((key, value) :: es) := by
  induction es with
  | nil => exact List.Perm.refl _
  | cons e es ih =>
      rw [List.map_cons, List.mem_cons, not_or] at h
      simp only [Json.insertEntry, if_neg h.1]
      split
      · exact List.Perm.refl _
      · exact ((ih h.2).cons e).trans (List.Perm.swap _ _ _)

theorem foldl_insertEntry_perm {es out : List (String × Json)}
    (h : ((es ++ out).map Prod.fst).Nodup) :
    (es.foldl (fun out e => Json.insertEntry e.1 e.2 out) out).Perm
      (es ++ out) := by
  induction es generalizing out with
  | nil => exact List.Perm.refl _
  | cons e es ih =>
      rw [List.cons_append, List.map_cons, List.nodup_cons] at h
      have hout : e.1 ∉ out.map Prod.fst := by
        intro hmem
        exact h.1 (by rw [List.map_append]; exact List.mem_append_right _ hmem)
      have hperm : (es ++ Json.insertEntry e.1 e.2 out).Perm
          (es ++ (e.1, e.2) :: out) := (insertEntry_perm hout).append_left es
      have hmiddle : (es ++ (e.1, e.2) :: out).Perm ((e :: es) ++ out) :=
        List.perm_middle
      have hnodup : ((es ++ Json.insertEntry e.1 e.2 out).map
          Prod.fst).Nodup := by
        rw [((hperm.trans hmiddle).map Prod.fst).nodup_iff]
        exact List.nodup_cons.mpr h
      exact (ih hnodup).trans (hperm.trans hmiddle)

/-- New ids are distinct, and none is a key of the plan. -/
structure FreshMoves (plan : Json) (moves : List (String × String)) :
    Prop where
  distinct : (moves.map Prod.snd).Nodup
  unused : ∀ m ∈ moves, m.2 ∉ taskIds plan
  notMeta : ∀ m ∈ moves, m.2 ≠ META_KEY

section Applied

variable {plan : Json} {moves : List (String × String)}

theorem mem_of_rename {id new : String} (h : rename moves id = some new) :
    (id, new) ∈ moves := by
  obtain ⟨l₁, l₂, hmoves, -⟩ := List.lookup_eq_some_iff.mp h
  rw [hmoves]
  exact List.mem_append_right _ List.mem_cons_self

theorem nodup_keys {plan : Json} (h : plan.isCanonical = true) :
    (plan.entries.map Prod.fst).Nodup :=
  (pairwise_keys h).imp fun hlt => ne_of_lt hlt

theorem fst_moveEntry_meta {e : String × Json} (h : e.1 = META_KEY) :
    moveEntry moves e = e := by
  rw [moveEntry, if_pos h]

theorem fst_moveEntry_task {e : String × Json} (h : e.1 ≠ META_KEY) :
    moveEntry moves e = (image moves e.1, moveTask moves e.1 e.2) := by
  rw [moveEntry, if_neg h]
  rfl

theorem image_ne_meta (hmoves : FreshMoves plan moves) {id : String}
    (h : id ≠ META_KEY) : image moves id ≠ META_KEY := by
  rw [image]
  cases hmove : rename moves id with
  | none => exact h
  | some new => exact hmoves.notMeta _ (mem_of_rename hmove)

/-- Different tasks stay different. -/
theorem image_injOn (hmoves : FreshMoves plan moves) :
    Set.InjOn (image moves) { id | id ∈ taskIds plan } := by
  intro a ha b hb h
  rw [image, image] at h
  cases hmove : rename moves a with
  | none =>
      cases hmove' : rename moves b with
      | none => simpa [hmove, hmove'] using h
      | some new =>
          rw [hmove, hmove', Option.getD_none, Option.getD_some] at h
          exact absurd (h ▸ ha) (hmoves.unused _ (mem_of_rename hmove'))
  | some new =>
      cases hmove' : rename moves b with
      | none =>
          rw [hmove, hmove', Option.getD_none, Option.getD_some] at h
          exact absurd (h ▸ hb) (hmoves.unused _ (mem_of_rename hmove))
      | some new' =>
          rw [hmove, hmove', Option.getD_some, Option.getD_some] at h
          have heq := List.inj_on_of_nodup_map hmoves.distinct
            (mem_of_rename hmove) (mem_of_rename hmove') h
          exact congrArg Prod.fst heq

theorem nodup_moved (hplan : plan.isCanonical = true)
    (hmoves : FreshMoves plan moves) :
    ((plan.entries.map (moveEntry moves)).map Prod.fst).Nodup := by
  rw [List.map_map]
  have hentries : plan.entries.Nodup := List.Nodup.of_map _ (nodup_keys hplan)
  refine List.Nodup.map_on ?_ hentries
  intro d hd e he h
  have hkeys : d.1 = e.1 → d = e :=
    fun hde => List.inj_on_of_nodup_map (nodup_keys hplan) hd he hde
  apply hkeys
  simp only [Function.comp_apply] at h
  have htask : ∀ e ∈ plan.entries, e.1 ≠ META_KEY → e.1 ∈ taskIds plan := by
    intro e he hne
    exact List.mem_map_of_mem (List.mem_filter.mpr ⟨he, by simpa using hne⟩)
  by_cases hdm : d.1 = META_KEY
  · by_cases hem : e.1 = META_KEY
    · rw [hdm, hem]
    · rw [fst_moveEntry_meta hdm, fst_moveEntry_task hem, hdm] at h
      exact absurd h.symm (image_ne_meta hmoves hem)
  · by_cases hem : e.1 = META_KEY
    · rw [fst_moveEntry_task hdm, fst_moveEntry_meta hem, hem] at h
      exact absurd h (image_ne_meta hmoves hdm)
    · rw [fst_moveEntry_task hdm, fst_moveEntry_task hem] at h
      exact image_injOn hmoves (htask d hd hdm) (htask e he hem) h

/-- The entries after the moves are those before, each moved. -/
theorem entries_applyMoves_perm (hplan : plan.isCanonical = true)
    (hmoves : FreshMoves plan moves) :
    (applyMoves plan moves).entries.Perm
      (plan.entries.map (moveEntry moves)) := by
  have hnodup := nodup_moved hplan hmoves
  have hperm : ((plan.entries.map (moveEntry moves)).foldl
      (fun out e => Json.insertEntry e.1 e.2 out) []).Perm
      (plan.entries.map (moveEntry moves) ++ []) :=
    foldl_insertEntry_perm (by rwa [List.append_nil])
  rw [List.append_nil, List.foldl_map] at hperm
  exact hperm

theorem taskEntries_applyMoves_perm (hplan : plan.isCanonical = true)
    (hmoves : FreshMoves plan moves) :
    (taskEntries (applyMoves plan moves)).Perm
      ((taskEntries plan).map fun e =>
        (image moves e.1, moveTask moves e.1 e.2)) := by
  have hfilter := (entries_applyMoves_perm hplan hmoves).filter
    fun e => e.1 ≠ META_KEY
  have hmeta : ∀ e : String × Json,
      decide ((moveEntry moves e).1 ≠ META_KEY) =
        decide (e.1 ≠ META_KEY) := by
    intro e
    by_cases he : e.1 = META_KEY
    · rw [fst_moveEntry_meta he]
    · rw [fst_moveEntry_task he]
      simp only [decide_eq_decide]
      exact ⟨fun _ => he, fun _ => image_ne_meta hmoves he⟩
  have hlist : (plan.entries.map (moveEntry moves)).filter
      (fun e => decide (e.1 ≠ META_KEY)) =
      (taskEntries plan).map fun e =>
        (image moves e.1, moveTask moves e.1 e.2) := by
    rw [List.filter_map, taskEntries]
    have hcomp : ((fun e : String × Json => decide (e.1 ≠ META_KEY)) ∘
        moveEntry moves) = fun e => decide (e.1 ≠ META_KEY) := by
      funext e
      exact hmeta e
    rw [hcomp]
    refine List.map_congr_left ?_
    intro e he
    exact fst_moveEntry_task (by simpa using (List.mem_filter.mp he).2)
  rw [← hlist]
  exact hfilter

theorem get_meta_applyMoves (hplan : plan.isCanonical = true)
    (hmoves : FreshMoves plan moves) :
    (applyMoves plan moves).get META_KEY = plan.get META_KEY := by
  have hperm := entries_applyMoves_perm hplan hmoves
  have hnodup : ((applyMoves plan moves).entries.map Prod.fst).Nodup := by
    rw [(hperm.map Prod.fst).nodup_iff]
    exact nodup_moved hplan hmoves
  cases hget : plan.get META_KEY with
  | some v =>
      have hmem : (META_KEY, v) ∈ plan.entries := by
        obtain ⟨l₁, l₂, hes, -⟩ := List.lookup_eq_some_iff.mp hget
        rw [hes]
        exact List.mem_append_right _ List.mem_cons_self
      have hmoved : (META_KEY, v) ∈ (applyMoves plan moves).entries := by
        rw [hperm.mem_iff]
        have hself : moveEntry moves (META_KEY, v) = (META_KEY, v) :=
          fst_moveEntry_meta rfl
        exact List.mem_map.mpr ⟨_, hmem, hself⟩
      exact KeyedJoin.lookup_of_mem hnodup hmoved
  | none =>
      rw [Json.get, List.lookup_eq_none_iff]
      intro e he
      rw [hperm.mem_iff] at he
      obtain ⟨d, hd, rfl⟩ := List.mem_map.mp he
      have hne : d.1 ≠ META_KEY := by
        rw [Json.get, List.lookup_eq_none_iff] at hget
        exact Ne.symm (bne_iff_ne.mp (hget d hd))
      rw [fst_moveEntry_task hne]
      exact bne_iff_ne.mpr (Ne.symm (image_ne_meta hmoves hne))

end Applied

/-! ## Nothing is lost -/

theorem TaskId.new_ne_meta (n : ℕ) : TaskId.new n ≠ META_KEY := by
  intro h
  have htext := congrArg String.toList h
  simp [TaskId.new, META_KEY] at htext

theorem sameTask_of_fields {a a' b : Json}
    (hat : a'.get "created_at" = a.get "created_at")
    (hby : a'.get "created_by" = a.get "created_by") :
    sameTask a' b = sameTask a b := by
  rw [sameTask, sameTask, hat, hby]

section Main

variable {ours theirs : Json} {base : Option Json}

theorem freshMoves_of_fits (h : Fits ours theirs base) :
    FreshMoves ours (planMoves ours theirs base) where
  distinct := nodup_new h.count
  unused m hm hmem := unused_of_fits h hm (List.mem_append_left _ hmem)
  notMeta m hm := by
    have hsnd : m.2 ∈ (planMoves ours theirs base).map Prod.snd :=
      List.mem_map_of_mem hm
    rw [map_snd_planMoves] at hsnd
    obtain ⟨i, -, hnew⟩ := List.mem_map.mp hsnd
    rw [← hnew]
    exact TaskId.new_ne_meta _

/-- A task that stays is one that does not collide. -/
theorem not_collides_of_rename_none {id : String} {task : Json}
    (hmem : (id, task) ∈ taskEntries ours)
    (h : rename (planMoves ours theirs base) id = none) :
    collides theirs base (id, task) = false := by
  rw [Bool.eq_false_iff]
  intro hcollides
  have hin : id ∈ (planMoves ours theirs base).map Prod.fst := by
    rw [map_fst_planMoves, mem_colliding]
    exact ⟨task, hmem, hcollides⟩
  obtain ⟨m, hm, hid⟩ := List.mem_map.mp hin
  rw [rename, List.lookup_eq_none_iff] at h
  exact absurd hid.symm (bne_iff_ne.mp (h m hm))

theorem sameTask_of_not_collides {id : String} {task b : Json}
    (htheirs : theirs.isCanonical = true)
    (h : collides theirs base (id, task) = false)
    (hbase : id ∉ baseIds base) (hb : (id, b) ∈ taskEntries theirs) :
    sameTask task b = true := by
  have hlookup : (taskEntries theirs).lookup id = some b :=
    KeyedJoin.lookup_of_mem (nodup_taskIds htheirs) hb
  have hout : (base.elim [] taskIds).contains id = false := by
    rw [Bool.eq_false_iff, Ne, List.contains_iff_mem]
    exact hbase
  simpa only [collides, hlookup, hout, Bool.not_false, Bool.true_and,
    Bool.not_eq_false'] using h

theorem settled_applyMoves (hours : ours.isCanonical = true)
    (htheirs : theirs.isCanonical = true) (h : Fits ours theirs base)
    {id : String} {a b : Json} (hbase : id ∉ baseIds base)
    (ha : (id, a) ∈
      taskEntries (applyMoves ours (planMoves ours theirs base)))
    (hb : (id, b) ∈ taskEntries theirs) : sameTask a b = true := by
  rw [(taskEntries_applyMoves_perm hours (freshMoves_of_fits h)).mem_iff] at ha
  obtain ⟨⟨k, task⟩, hmem, heq⟩ := List.mem_map.mp ha
  obtain ⟨rfl, rfl⟩ := Prod.mk.inj heq
  cases hmove : rename (planMoves ours theirs base) k with
  | some new =>
      have himage : image (planMoves ours theirs base) k = new := by
        rw [image, hmove, Option.getD_some]
      rw [himage] at hb
      exact absurd (List.mem_append_right _ (mem_taskIds_of_mem hb))
        (unused_of_fits h (mem_of_rename hmove))
  | none =>
      have himage : image (planMoves ours theirs base) k = k := by
        rw [image, hmove, Option.getD_none]
      rw [himage] at hb hbase
      have hfollows := follows_moveTask (planMoves ours theirs base) k task
      rw [sameTask_of_fields
        (hfollows.fields _ (by decide) (by decide) (by decide))
        (hfollows.fields _ (by decide) (by decide) (by decide))]
      exact sameTask_of_not_collides htheirs
        (not_collides_of_rename_none hmem hmove) hbase hb

/-- Where nothing collides there is nothing to move. -/
theorem planMoves_eq_nil {plan : Json}
    (h : ∀ id a b, id ∉ baseIds base → (id, a) ∈ taskEntries plan →
      (id, b) ∈ taskEntries theirs → sameTask a b = true) :
    planMoves plan theirs base = [] := by
  have hnone : colliding plan theirs base = [] := by
    rw [List.eq_nil_iff_forall_not_mem]
    intro id hid
    obtain ⟨task, hmem, hcollides⟩ := mem_colliding.mp hid
    simp only [collides, Bool.and_eq_true, Bool.not_eq_true'] at hcollides
    obtain ⟨hbase, hother⟩ := hcollides
    cases hlookup : (taskEntries theirs).lookup id with
    | none => simp [hlookup] at hother
    | some their =>
        obtain ⟨l₁, l₂, hes, -⟩ := List.lookup_eq_some_iff.mp hlookup
        have hin : (id, their) ∈ taskEntries theirs := by
          rw [hes]
          exact List.mem_append_right _ List.mem_cons_self
        have hnot : id ∉ baseIds base := by
          intro hmem'
          rw [Bool.eq_false_iff, Ne, List.contains_iff_mem] at hbase
          exact hbase hmem'
        have hsame := h id task their hnot hmem hin
        simp [hlookup, hsame] at hother
  rw [planMoves, hnone]
  rfl

end Main

/-- Renumbering loses nothing and settles every collision, for exactly those
plans where no new number wraps onto an id in use. -/
theorem losesNothing_iff (ours theirs : PlanTree) (base : Option PlanTree) :
    LosesNothing ours.value theirs.value (base.map PlanTree.value)
        (planMoves ours.value theirs.value (base.map PlanTree.value)) ↔
      Fits ours.value theirs.value (base.map PlanTree.value) := by
  constructor
  · exact fits_of_losesNothing
  · intro h
    have hfresh := freshMoves_of_fits h
    have hperm := taskEntries_applyMoves_perm ours.canonical hfresh
    refine ⟨?_, hfresh.distinct, ?_, ?_, ?_, ?_, ?_⟩
    · simpa using hperm.length_eq
    · intro m hm
      rw [← not_or, ← List.mem_append]
      exact unused_of_fits h hm
    · intro id a b hbase ha hb
      exact settled_applyMoves ours.canonical theirs.canonical h hbase ha hb
    · intro id task hmem
      refine ⟨_, ?_, follows_moveTask _ id task⟩
      rw [hperm.mem_iff]
      exact List.mem_map.mpr ⟨(id, task), hmem, rfl⟩
    · exact get_meta_applyMoves ours.canonical hfresh
    · apply planMoves_eq_nil
      intro id a b hbase ha hb
      exact settled_applyMoves ours.canonical theirs.canonical h hbase ha hb

/-! ## A number past the end -/

namespace WrappedNumber

def task (createdAt : String) : Json :=
  .object [("created_at", .string createdAt)]

/-- This side has a task with the last number, which the other side has too,
and one with the first. -/
def ours : PlanTree where
  value := .object [("t-000", task "c"), ("t-4294967295", task "a")]
  canonical := by decide

def theirs : PlanTree where
  value := .object [("t-4294967295", task "b")]
  canonical := by decide

/-- The colliding task takes the place of the other one. -/
theorem not_losesNothing :
    ¬ LosesNothing ours.value theirs.value none
      (planMoves ours.value theirs.value none) := by
  intro h
  have hcount := h.count
  revert hcount
  with_unfolding_all decide

end WrappedNumber

end Tasks

end AgentStateGraph
