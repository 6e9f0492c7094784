import AgentStateGraph.Control.Tree
import AgentStateGraph.Lib.KeyedJoin

/-!
# Merging two control trees

The merge needs no common ancestor: for each record that both sides have, it
picks the version that ranks higher, by rules of the record's kind, and the
larger tree id on a tie; the memberships of an epoch are united.
-/

namespace AgentStateGraph

variable {Id : Type} [Digest Id]

/-- Two stores sealed one epoch differently. -/
structure EpochConflict (Id : Type) where
  epoch : String
  keptSeal : Option Id
  droppedSeal : Option Id
deriving DecidableEq

structure Merged (Id : Type) where
  root : Id
  conflicts : List (EpochConflict Id)
deriving DecidableEq

namespace Control

/-! ## Ranks -/

/-- `Option<DateTime<Utc>>` in its derived order: nothing comes first. -/
def timeOrder : Option ℤ → WithBot ℤ
  | none => ⊥
  | some t => t

abbrev TaintRank := Bool ×ₗ (WithBot ℤ)ᵒᵈ ×ₗ Bool

/-- A resolution beats none, an earlier resolution a later one, and a version
carrying its intent commit one without. -/
def taintRank (t : Taint) : TaintRank :=
  toLex (t.resolvedAt.isSome,
    toLex (OrderDual.toDual (timeOrder t.resolvedAt), !t.commitId.isEmpty))

abbrev ReminderRank := ℕ ×ₗ ℤ

/-- Deleted, then terminal, then by edit time. -/
def reminderRank : ReminderEntry → ReminderRank
  | .deleted deletedAt => toLex (2, deletedAt)
  | .live reminder editedAt =>
      toLex (if reminder.status.isTerminal then 1 else 0, editedAt)

abbrev EpochRank := ℕ ×ₗ (WithBot ℤ)ᵒᵈ ×ₗ Bool

/-- Archived, then sealed, then active; an earlier seal beats a later one, and
an assigned namespace beats none. -/
def epochRank (e : EpochRecord Id) : EpochRank :=
  let status := match e.status with
    | .active => 0
    | .sealed => 1
    | .archived => 2
  toLex (status,
    toLex (OrderDual.toDual (timeOrder e.sealedAt), e.namespace_.isSome))

/-- The winner and the loser of two versions with their ranks. -/
def pick {ρ : Type} [LinearOrder ρ] (ours theirs : Id × ρ) : Id × Id :=
  if toLex (ours.2, ours.1) < toLex (theirs.2, theirs.1) then
    (theirs.1, ours.1)
  else (ours.1, theirs.1)

/-- `BTreeSet<ObjectId>`. -/
abbrev IdSet (Id : Type) [Digest Id] := Std.ExtTreeSet Id compare

/-! ## The merge -/

/-- The conflict of two differently sealed versions of an epoch. -/
def sealConflict (epoch : String) (winner ourTree : Id)
    (ours theirs : EpochRecord Id) : List (EpochConflict Id) :=
  match ours.sealHash, theirs.sealHash with
  | some x, some y =>
      if x ≠ y then
        if winner = ourTree then [⟨epoch, some x, some y⟩]
        else [⟨epoch, some y, some x⟩]
      else []
  | _, _ => []

/-- What becomes of a record that both sides have in different versions. -/
def mergeRecord (codec : ControlCodec Id) (kind : Section)
    (store : ObjectStore Id) (id : String) (ourTree theirTree : Id) :
    Except (ControlError Id)
      (Id × List (EpochConflict Id) × ObjectStore Id) :=
  match kind with
  | .taints => do
      let o ← loadTaint codec store ourTree
      let t ← loadTaint codec store theirTree
      .ok ((pick (ourTree, taintRank o) (theirTree, taintRank t)).1, [], store)
  | .reminders => do
      let o ← loadReminder codec store ourTree
      let t ← loadReminder codec store theirTree
      .ok ((pick (ourTree, reminderRank o) (theirTree, reminderRank t)).1, [],
        store)
  | .epochs => do
      let o ← loadEpoch codec store ourTree
      let t ← loadEpoch codec store theirTree
      let winner := (pick (ourTree, epochRank o) (theirTree, epochRank t)).1
      .ok (winner, sealConflict id winner ourTree o t, store)
  | .members => do
      let o ← loadIds codec store ourTree
      let t ← loadIds codec store theirTree
      let union : IdSet Id := Std.ExtTreeSet.ofList (o ++ t) compare
      let (merged, store') := putIds codec store union.toList
      .ok (merged, [], store')

/-- The state of the merge of one section. -/
abbrev SectionState (Id : Type) [Digest Id] :=
  BTreeMap String Id × List (EpochConflict Id) × ObjectStore Id

/-- One record of the other side. -/
def mergeEntry (codec : ControlCodec Id) (kind : Section)
    (state : SectionState Id) (entry : String × Id) :
    Except (ControlError Id) (SectionState Id) :=
  let (ours, conflicts, store) := state
  match ours[entry.1]? with
  | none => .ok (ours.insert entry.1 entry.2, conflicts, store)
  | some ourTree =>
      if ourTree = entry.2 then .ok state
      else do
        let (winner, more, store') ←
          mergeRecord codec kind store entry.1 ourTree entry.2
        .ok (ours.insert entry.1 winner, conflicts ++ more, store')

def mergeSection (codec : ControlCodec Id) (kind : Section)
    (state : SectionState Id) (theirs : BTreeMap String Id) :
    Except (ControlError Id) (SectionState Id) :=
  theirs.toList.foldlM (mergeEntry codec kind) state

/-- The state of the merge of all sections. -/
abbrev MergeState (Id : Type) [Digest Id] :=
  Sections Id × List (EpochConflict Id) × ObjectStore Id

def mergeStep (codec : ControlCodec Id) (theirs : Sections Id)
    (state : MergeState Id) (kind : Section) :
    Except (ControlError Id) (MergeState Id) := do
  let (merged, conflicts, store) ←
    mergeSection codec kind (state.1 kind, state.2) (theirs kind)
  .ok (Function.update state.1 kind merged, conflicts, store)

/-- Merge two control trees.  On an error objects may have been stored that no
tree points at; the result is only the error then. -/
def merge (codec : ControlCodec Id) (store : ObjectStore Id)
    (ours theirs : Id) :
    Except (ControlError Id) (Merged Id × ObjectStore Id) :=
  if ours = theirs then .ok (⟨ours, []⟩, store)
  else do
    let a ← Sections.load store ours
    let b ← Sections.load store theirs
    let (merged, conflicts, store') ←
      Section.all.foldlM (mergeStep codec b) (a, [], store)
    let (root, store'') := Sections.write store' merged
    .ok (⟨root, conflicts⟩, store'')

/-! ## What a control tree says -/

/-- The content of a control tree: the records' trees, and each epoch's
commits. -/
structure Records (Id : Type) [Digest Id] where
  taints : BTreeMap String Id
  reminders : BTreeMap String Id
  epochs : BTreeMap String Id
  members : BTreeMap String (IdSet Id)

/-- The sections that hold given records. -/
def Records.sections (codec : ControlCodec Id) (x : Records Id) : Sections Id
  | .taints => x.taints
  | .reminders => x.reminders
  | .epochs => x.epochs
  | .members => x.members.map fun _ ids => (idList codec ids.toList).id

/-- The root of the control tree that holds given records. -/
def Records.root (codec : ControlCodec Id) (x : Records Id) : Id :=
  (topObject (x.sections codec)).id

/-- Every record can be read. -/
structure Records.Readable (codec : ControlCodec Id) (store : ObjectStore Id)
    (x : Records Id) : Prop where
  taints : ∀ (k : String) tree, x.taints[k]? = some tree →
    ∃ t, loadTaint codec store tree = .ok t
  reminders : ∀ (k : String) tree, x.reminders[k]? = some tree →
    ∃ r, loadReminder codec store tree = .ok r
  epochs : ∀ (k : String) tree, x.epochs[k]? = some tree →
    ∃ e, loadEpoch codec store tree = .ok e

/-- The store holds a control tree at `root` that says `x`. -/
structure Represents (codec : ControlCodec Id) (store : ObjectStore Id)
    (root : Id) (x : Records Id) : Prop where
  root_eq : root = x.root codec
  objects : ∀ o ∈ sectionObjects (x.sections codec), store.get o.id = some o
  readable : x.Readable codec store
  members : ∀ (k : String) ids, x.members[k]? = some ids →
    HoldsIds codec store ids.toList

/-- A control tree as this build writes it: the format, the four sections,
records that can be read, and id lists in chunks. -/
def WellFormed (codec : ControlCodec Id) (store : ObjectStore Id)
    (root : Id) : Prop :=
  ∃ x, Represents codec store root x

/-- The rank of the record at a tree; a tree that does not load ranks
lowest. -/
def rankAt {α ρ : Type} (load : Id → Except (ControlError Id) α)
    (rank : α → ρ) (tree : Id) : WithBot ρ :=
  match load tree with
  | .ok a => (rank a : WithBot ρ)
  | .error _ => ⊥

/-- The join of two contents: per record the version that ranks higher in the
store, per epoch the union of the commits. -/
def Records.join (codec : ControlCodec Id) (store : ObjectStore Id)
    (x y : Records Id) : Records Id where
  taints := KeyedJoin.join
    (KeyedJoin.pickBy (rankAt (loadTaint codec store) taintRank))
    x.taints y.taints
  reminders := KeyedJoin.join
    (KeyedJoin.pickBy (rankAt (loadReminder codec store) reminderRank))
    x.reminders y.reminders
  epochs := KeyedJoin.join
    (KeyedJoin.pickBy (rankAt (loadEpoch codec store) epochRank))
    x.epochs y.epochs
  members := KeyedJoin.join
    (fun a b => Std.ExtTreeSet.ofList (a.toList ++ b.toList) compare)
    x.members y.members

end Control

end AgentStateGraph
