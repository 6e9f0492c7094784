import AgentStateGraph.Repo.Guards
import AgentStateGraph.Tree.Read

/-!
# The reads of a repository

A read names a ref and resolves it to the state root of its commit.  Paths at
or below `/_meta/_secret` are refused; listings and searches drop such paths
from what the walk found.
-/

namespace AgentStateGraph

variable {Id : Type} [Digest Id]

namespace Repository

variable (repo : Repository)

/-- The state root a ref resolves to. -/
def headRoot (store : Storage Id) (refName : String) :
    Except (RepoError Id) Id := do
  let commitId ← repo.resolveRef store refName
  match store.getCommit commitId with
  | some commit => .ok commit.stateRoot
  | none => .error (.refNotFound refName)

def get (store : Storage Id) (refName path : String) :
    Except (RepoError Id) (Object Id) :=
  if pathIsSecret path then .error (.reservedPath path)
  else do
    let root ← repo.headRoot store refName
    let statePath ← liftTree (parsePath path)
    liftTree (treeGet store.objects root statePath)

def getJson (store : Storage Id) (refName path : String) :
    Except (RepoError Id) Json := do
  let obj ← repo.get store refName path
  liftTree (treeToJson store.objects obj)

def getJsonCapped (store : Storage Id) (refName path : String)
    (maxDepth : ℕ) : Except (RepoError Id) Json := do
  let obj ← repo.get store refName path
  liftTree (treeToJsonCapped store.objects obj maxDepth)

def getJsonMany (store : Storage Id) (refName : String)
    (paths : List String) : Except (RepoError Id) (List (Option Json)) :=
  match paths.find? fun p => pathIsSecret p with
  | some secret => .error (.reservedPath secret)
  | none => do
      let parsed ← paths.mapM fun p => liftTree (parsePath p)
      let root ← repo.headRoot store refName
      let objs ← liftTree (treeGetMany store.objects root parsed)
      liftTree (treesToJson store.objects objs)

def listPaths (store : Storage Id) (refName pre : String)
    (maxDepth : Option ℕ) : Except (RepoError Id) (List String) :=
  if pathIsSecret pre then .error (.reservedPath pre)
  else do
    let root ← repo.headRoot store refName
    let paths ← liftTree
      (treeListPaths store.objects root pre (maxDepth.getD 50))
    .ok (paths.filter fun p => !pathIsSecret p)

/-- The walk of a backend without a leaf index. -/
def searchValues (text : TextTables) (store : Storage Id)
    (refName query : String) (maxResults : Option ℕ) :
    Except (RepoError Id) (List (String × String)) := do
  let root ← repo.headRoot store refName
  let results ← liftTree
    (treeSearchValues text store.objects root query (maxResults.getD 50))
  .ok (results.filter fun r => !pathIsSecret r.1)

end Repository

end AgentStateGraph
