import AgentStateGraph.Core.ContentKey
import AgentStateGraph.History.Fold
import AgentStateGraph.Lib.ParentForest
import AgentStateGraph.Repo.Speculation

/-!
# The tree of intents

A commit's intent may name a parent intent.  The tree of a log has the commits
without a parent intent for its roots, and below each commit those that name
its intent.  A commit is in it when its links lead to a root: one whose parent
intent is not in the log is in no tree, nor is a commit of a cycle or below
one.
-/

namespace AgentStateGraph

open ParentForest

variable {Id : Type} [Digest Id]

/-! ## The log -/

/-- `list_commits`: the first parents from a commit on. -/
def CommitStore.listCommits (commits : CommitStore Id) :
    ℕ → Option Id → List (Commit Id)
  | 0, _ => []
  | _ + 1, none => []
  | limit + 1, some id =>
      match commits.get id with
      | none => []
      | some c => c :: commits.listCommits limit c.parents.head?

def Commit.intentId (c : Commit Id) : String := c.options.intent.id

def Commit.parentIntent (c : Commit Id) : Option String :=
  c.options.intent.parentIntent

/-! ## The tree -/

/-- What is shown of a commit.  The caps of `enforce_caps` bound its texts. -/
structure IntentNode where
  id : String
  intentId : String
  agent : String
  category : String
  description : String
  reasoning : Option String
  confidence : Option F64
  timestamp : String
deriving DecidableEq

structure IntentTree where
  roots : List (ItemTree IntentNode)
  totalCommits : ℕ

namespace Repository

variable (repo : Repository) (texts : History.Texts) (store : Storage Id)

def log (refName : String) (limit : ℕ) : Except (RepoError Id) (List (Commit Id)) :=
  (repo.resolveRef store refName).map fun id =>
    store.commits.listCommits limit (some id)

def intentNode (c : Commit Id) : IntentNode where
  id := shortId c.id
  intentId := c.intentId
  agent := c.options.capped.agentId
  category := texts.debugCategory c.options.intent.category
  description := c.options.capped.intent.description
  reasoning := c.options.capped.reasoning
  confidence := c.options.confidence
  timestamp := texts.toRfc3339 c.timestamp

/-- `build_intent_node`, where `visiting` has the intents on the path.  Without
fuel it has no result. -/
def buildIntentNode (allCommits : List (Commit Id)) :
    ℕ → List String → Commit Id → Option (ItemTree (Commit Id)) :=
  grow Commit.intentId Commit.parentIntent allCommits

/-- The commits that are roots: the one asked for, or those without a parent
intent. -/
def intentRoots (commits : List (Commit Id)) (rootCommitId : Option String) :
    List (Commit Id) :=
  match rootCommitId with
  | some rootId => commits.filter fun c => shortId c.id = rootId
  | none => commits.filter fun c => c.parentIntent = none

/-- The trees of the roots.  A path has no intent twice, so a step for each
commit and one more is enough. -/
def intentForest (commits : List (Commit Id)) (rootCommitId : Option String) :
    Option (List (ItemTree (Commit Id))) :=
  (intentRoots commits rootCommitId).mapM
    (buildIntentNode commits (commits.length + 1) [])

/-- Without a forest it has not ended. -/
def intentTree (refName : String) (rootCommitId : Option String) :
    Except (RepoError Id) (Option IntentTree) := do
  let commits ← repo.log store refName 10000
  .ok ((intentForest commits rootCommitId).map fun forest =>
    ⟨forest.map (ItemTree.map (intentNode texts)), commits.length⟩)

theorem exists_intentForest (commits : List (Commit Id))
    (rootCommitId : Option String) :
    ∃ forest, intentForest commits rootCommitId = some forest := by
  refine exists_mapM_eq_some fun c hc => exists_grow ?_ ?_
  · unfold intentRoots at hc
    split at hc
    · exact (List.mem_filter.mp hc).1
    · exact (List.mem_filter.mp hc).1
  · exact Nat.lt_succ_of_le (List.length_filter_le _ _)

/-- Where the intents of a log are distinct, its tree has the commits whose
links lead through the log to one without a parent intent, each once, and below
each of them exactly the commits that name its intent. -/
theorem intentTree_forest {refName : String} {commits : List (Commit Id)}
    (hlog : repo.log store refName 10000 = .ok commits)
    (hids : (commits.map Commit.intentId).Nodup) :
    ∃ forest : List (ItemTree (Commit Id)),
      repo.intentTree texts store refName none =
        .ok (some ⟨forest.map (ItemTree.map (intentNode texts)),
          commits.length⟩) ∧
      forest.map ItemTree.item =
        commits.filter (fun c => c.parentIntent = none) ∧
      (∀ c, c ∈ forest.flatMap ItemTree.items ↔
        Rooted Commit.intentId Commit.parentIntent commits c) ∧
      (forest.flatMap ItemTree.items).Nodup ∧
      ∀ s ∈ forest.flatMap ItemTree.nodes,
        s.children.map ItemTree.item = commits.filter fun c =>
          c.parentIntent = some s.item.intentId := by
  obtain ⟨forest, hforest⟩ := exists_intentForest commits none
  have htree : repo.intentTree texts store refName none =
      .ok (some ⟨forest.map (ItemTree.map (intentNode texts)),
        commits.length⟩) := by
    simp only [intentTree, hlog, Except.ok_bind, hforest, Option.map_some]
  exact ⟨forest, htree, grown_forest
    (fun c hc d hd h => List.inj_on_of_nodup_map hids hc hd h) hids.of_map
    hforest⟩

end Repository

/-! ## A commit outside the tree -/

namespace Threads

open ContentKey

/-- A commit with an intent, and perhaps a parent intent. -/
def thread (intent : String) (parentIntent : Option String)
    (parents : List (Commit ContentKey)) (time : ℤ) : Commit ContentKey :=
  CommitBuilder.build (Object.emptyMap : Object ContentKey).id
    (parents.map Commit.id)
    { options .refine with
      intent := ⟨intent, .refine, "change", [], parentIntent⟩ } time

/-- Its parent intent was recorded on another branch. -/
def stray : Commit ContentKey := thread "sub" (some "elsewhere") [] 0

def plan : Commit ContentKey := thread "plan" none [] 0

/-- Its parent intent is that of `plan`. -/
def sub : Commit ContentKey := thread "sub" (some "plan") [plan] 1

/-- The main branch ends at the last of some commits. -/
def storeOf (commits : List (Commit ContentKey)) (head : Commit ContentKey) :
    Storage ContentKey :=
  { Storage.new with
    objects := AddressedMap.empty.putAll [Object.emptyMap]
    commits := AddressedMap.empty.putAll commits }.putRef "default" "main"
      head.id

def texts : History.Texts := ⟨fun _ => "", fun _ => "", id⟩

set_option maxRecDepth 16384 in
theorem log_stray : Repository.new.log (storeOf [stray] stray) "main" 10000 =
    .ok [stray] := by decide

set_option maxRecDepth 16384 in
theorem log_sub : Repository.new.log (storeOf [plan, sub] sub) "main" 10000 =
    .ok [sub, plan] := by decide

end Threads

open Threads in
/-- The commit is the whole log and in no tree. -/
theorem intentTree_drops_stray :
    Repository.new.log (storeOf [stray] stray) "main" 10000 = .ok [stray] ∧
      Repository.new.intentTree texts (storeOf [stray] stray) "main" none =
        .ok (some ⟨[], 1⟩) := by
  refine ⟨log_stray, ?_⟩
  simp only [Repository.intentTree, log_stray, Except.ok_bind]
  rfl

open Threads in
/-- A commit directly below the one whose intent it names. -/
theorem intentTree_forest_sub :
    ∃ forest : List (ItemTree (Commit ContentKey)),
      forest.map ItemTree.item =
        [sub, plan].filter (fun c => c.parentIntent = none) ∧
      ∀ s ∈ forest.flatMap ItemTree.nodes,
        s.children.map ItemTree.item = [sub, plan].filter fun c =>
          c.parentIntent = some s.item.intentId := by
  obtain ⟨forest, -, hroots, -, -, hchildren⟩ :=
    Repository.new.intentTree_forest texts (storeOf [plan, sub] sub) log_sub
      (by decide)
  exact ⟨forest, hroots, hchildren⟩

end AgentStateGraph
