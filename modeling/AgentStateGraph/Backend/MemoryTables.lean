import AgentStateGraph.Backend.Texts
import AgentStateGraph.Repo.Sessions

/-!
# Epochs in memory

The in-memory backend keeps epochs in the order they were created, and beside
them the epoch of each commit.  What an epoch's own record says of its commits
is not looked at again: reading one epoch fills in the associated commits,
listing all of them does not.
-/

namespace AgentStateGraph

namespace Backend

/-- A bounded segment of work, with every field of its record. -/
@[ext] structure EpochRow (Id : Type) where
  id : String
  description : String
  rootIntents : List String
  status : EpochStatus
  createdAt : ℤ
  sealedAt : Option ℤ
  sealSummary : Option String
  sealHash : Option Id
  commits : List Id
  agents : List String
  branches : List String
  tags : List String
  sealedCommits : List Id
  scope : EpochScope
  namespace_ : Option String
deriving DecidableEq

/-- The epochs, and the epoch of each commit, in insertion order. -/
structure EpochTable (Id : Type) where
  epochs : List (EpochRow Id)
  commitEpoch : List (Id × String)

/-- One owner for a commit: what it was linked to before is dropped. -/
def relink {Id : Type} [DecidableEq Id] (links : List (Id × String))
    (link : Id × String) : List (Id × String) :=
  links.filter (fun l => l.1 ≠ link.1) ++ [link]

namespace EpochTable

variable {Id : Type} (t : EpochTable Id)

def empty : EpochTable Id := ⟨[], []⟩

def find (id : String) : Option (EpochRow Id) :=
  t.epochs.find? fun e => e.id = id

/-- The first epoch with the id, changed. -/
def modify (id : String) (f : EpochRow Id → EpochRow Id) : EpochTable Id :=
  { t with
    epochs := t.epochs.modify (t.epochs.findIdx fun e => e.id = id) f }

def epochNotFound (id : String) : StorageError :=
  .backend ("epoch not found: " ++ id)

def createEpoch (e : EpochRow Id) : Except StorageError (EpochTable Id) :=
  if (t.epochs.any fun e' => e'.id = e.id) then
    .error (.backend ("epoch '" ++ e.id ++ "' already exists"))
  else .ok { t with epochs := t.epochs ++ [e] }

def sealEpoch (id summary : String) (sealedAt : ℤ) (sealedCommits : List Id)
    (sealHash : Id) : Except StorageError (EpochTable Id) :=
  match t.find id with
  | none => .error (epochNotFound id)
  | some e =>
      if e.status = .sealed ∨ e.status = .archived then
        .error (.epochAlreadySealed id)
      else
        .ok (t.modify id fun e =>
          { e with
            status := .sealed
            sealedAt := some sealedAt
            sealSummary := some summary
            sealedCommits := sealedCommits
            sealHash := some sealHash })

/-- Assign-only: an epoch that has an owner is left untouched. -/
def assignEpochNamespace (id ns : String) :
    Except StorageError (Bool × EpochTable Id) :=
  match t.find id with
  | none => .error (epochNotFound id)
  | some e =>
      if e.namespace_.isSome then .ok (false, t)
      else .ok (true, t.modify id fun e => { e with namespace_ := some ns })

def archiveEpoch (id : String) : Except StorageError (EpochTable Id) :=
  match t.find id with
  | none => .error (epochNotFound id)
  | some e =>
      if e.status ≠ .sealed then
        .error (.backend ("epoch '" ++ id ++ "' is not sealed"))
      else .ok (t.modify id fun e => { e with status := .archived })

def setCommitEpoch [DecidableEq Id] (commit : Id) (epochId : String) :
    Except StorageError (EpochTable Id) :=
  match t.find epochId with
  | none => .error (epochNotFound epochId)
  | some e =>
      if e.status = .sealed ∨ e.status = .archived then
        .error (.epochAlreadySealed epochId)
      else .ok { t with commitEpoch := relink t.commitEpoch (commit, epochId) }

/-- The commits associated with an epoch. -/
def commitsOf (id : String) : List Id :=
  (t.commitEpoch.filter fun l => l.2 = id).map Prod.fst

def getEpoch (id : String) : Option (EpochRow Id) :=
  (t.find id).map fun e => { e with commits := t.commitsOf id }

/-- Latest first; epochs of one moment stay in the order they were created. -/
def listEpochs : List (EpochRow Id) :=
  t.epochs.mergeSort fun a b => decide (b.createdAt ≤ a.createdAt)

end EpochTable

/-! ## Finding epochs -/

namespace EpochTable

variable {Id : Type}

/-- No two epochs have one id. -/
def Distinct (t : EpochTable Id) : Prop :=
  (t.epochs.map fun e => e.id).Nodup

variable {t : EpochTable Id} {id : String} {e : EpochRow Id}
  {f : EpochRow Id → EpochRow Id}

theorem id_of_find (h : t.find id = some e) : e.id = id := by
  simpa using List.find?_some h

theorem mem_of_find (h : t.find id = some e) : e ∈ t.epochs :=
  List.mem_of_find?_eq_some h

theorem find_eq_none_iff : t.find id = none ↔ ∀ e ∈ t.epochs, e.id ≠ id := by
  simp [find]

theorem find_of_mem (h : t.Distinct) (he : e ∈ t.epochs) :
    t.find e.id = some e := by
  cases hfind : t.find e.id with
  | none => exact absurd rfl (find_eq_none_iff.mp hfind e he)
  | some e' =>
      rw [List.inj_on_of_nodup_map h (mem_of_find hfind) he (id_of_find hfind)]

theorem find_append (t : EpochTable Id) (e : EpochRow Id) (id : String) :
    ({ t with epochs := t.epochs ++ [e] } : EpochTable Id).find id =
      (t.find id).or (if e.id = id then some e else none) := by
  simp only [find, List.find?_append, List.find?_singleton, decide_eq_true_eq]

/-- A field that the change keeps is the same all along the list. -/
theorem map_modify_eq {α : Type} (l : List (EpochRow Id)) (k : ℕ)
    {g : EpochRow Id → α} (hf : ∀ e, g (f e) = g e) :
    (l.modify k f).map g = l.map g := by
  apply List.ext_getElem
  · simp
  · intro i h₁ h₂
    simp only [List.getElem_map, List.getElem_modify]
    split
    · exact hf _
    · rfl

theorem find_modify (t : EpochTable Id) (id : String)
    (hf : ∀ e, (f e).id = e.id) (id' : String) :
    (t.modify id f).find id' =
      if id' = id then (t.find id).map f else t.find id' := by
  obtain ⟨l, links⟩ := t
  simp only [modify, find]
  induction l with
  | nil => simp
  | cons e l ih =>
      by_cases hid : e.id = id
      · by_cases hid' : id' = id
        · simp [List.findIdx_cons, hid, hid', hf]
        · have hne : e.id ≠ id' := by
            rw [hid]
            exact Ne.symm hid'
          simp [List.findIdx_cons, hid, hid', hf, Ne.symm hid']
      · have hidx : (e :: l).findIdx (fun e => decide (e.id = id)) =
            l.findIdx (fun e => decide (e.id = id)) + 1 := by
          simp [List.findIdx_cons, hid]
        rw [hidx, List.modify_succ_cons, List.find?_cons, List.find?_cons,
          List.find?_cons]
        by_cases hid' : id' = id
        · subst hid'
          simp only [hid, decide_false]
          simpa using ih
        · by_cases he : e.id = id'
          · simp [he, hid']
          · simp only [he, hid, decide_false]
            simpa [hid'] using ih

theorem modify_eq_map (h : t.Distinct) (id : String)
    (f : EpochRow Id → EpochRow Id) :
    (t.modify id f).epochs =
      t.epochs.map fun e => if e.id = id then f e else e := by
  obtain ⟨l, links⟩ := t
  simp only [Distinct] at h
  simp only [modify]
  induction l with
  | nil => rfl
  | cons e l ih =>
      rw [List.map_cons, List.nodup_cons] at h
      by_cases hid : e.id = id
      · have hrest : l.map (fun e => if e.id = id then f e else e) = l := by
          refine (List.map_congr_left ?_).trans (List.map_id l)
          intro e' he'
          have hne : e'.id ≠ id := by
            rintro rfl
            exact h.1 (hid ▸ List.mem_map_of_mem he')
          simp [hne]
        rw [List.map_cons, hrest]
        simp [List.findIdx_cons, hid]
      · have hidx : (e :: l).findIdx (fun e => decide (e.id = id)) =
            l.findIdx (fun e => decide (e.id = id)) + 1 := by
          simp [List.findIdx_cons, hid]
        rw [hidx, List.modify_succ_cons, ih h.2, List.map_cons, if_neg hid]

theorem distinct_modify (h : t.Distinct) (id : String)
    (hf : ∀ e, (f e).id = e.id) : (t.modify id f).Distinct := by
  rw [Distinct, modify, map_modify_eq _ _ hf]
  exact h

@[simp] theorem commitEpoch_modify (t : EpochTable Id) (id : String)
    (f : EpochRow Id → EpochRow Id) :
    (t.modify id f).commitEpoch = t.commitEpoch := rfl

end EpochTable

end Backend

end AgentStateGraph
