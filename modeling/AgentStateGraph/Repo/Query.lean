import AgentStateGraph.History.Fold
import AgentStateGraph.Lib.Paging
import AgentStateGraph.Postgres.Addressing
import AgentStateGraph.Repo.DagListing
import AgentStateGraph.Repo.Documents

/-!
# Querying the history

A query walks the history to a bound, filters what the walk lists in memory and
returns a window of that.  The bound is ten thousand commits, or the end of the
window when that is farther, so the pages of one query see different parts of a
long history.  What they return is right; that it is everything holds exactly
when each answer is within the walk of the page that it belongs to.
-/

namespace AgentStateGraph

variable {Id : Type} [Digest Id]

/-- `f64::le`. -/
def F64.le (x y : F64) : Bool :=
  !x.isNaN && !y.isNaN && decide (x.signed ≤ y.signed)

/-- `str::eq_ignore_ascii_case`. -/
def eqIgnoreAsciiCase (s t : String) : Bool :=
  s.toList.map Char.toLower == t.toList.map Char.toLower

namespace Query

open PostgresRows (Authority IntentLifecycle IntentStatus ToolCall
  MAX_TOOL_CALLS)

/-! ## Commits as they are read -/

/-- What the provenance of a commit is the text of. -/
structure Provenance where
  authority : Authority
  lifecycle : IntentLifecycle
  toolCalls : List ToolCall

/-- A commit with all its provenance. -/
structure CommitRecord (Id : Type) where
  id : Id
  stateRoot : Id
  parents : List Id
  timestamp : ℤ
  agentId : String
  authority : Authority
  intent : PostgresRows.Intent
  reasoning : Option String
  confidence : Option F64
  toolCalls : List ToolCall

def CommitRecord.enforceCaps (c : CommitRecord Id) : CommitRecord Id :=
  { c with
    agentId := truncateChars c.agentId MAX_AGENT_ID_LEN
    intent :=
      { c.intent with
        description := truncateChars c.intent.description MAX_DESCRIPTION_LEN }
    reasoning := c.reasoning.map (truncateChars · MAX_REASONING_LEN)
    toolCalls := c.toolCalls.take MAX_TOOL_CALLS }

/-- A stored commit, with its provenance read. -/
def recordOf (provenance : String → Provenance) (c : Commit Id) :
    CommitRecord Id where
  id := c.id
  stateRoot := c.stateRoot
  parents := c.parents
  timestamp := c.timestamp
  agentId := c.options.agentId
  authority := (provenance c.options.provenance).authority
  intent :=
    { id := c.options.intent.id
      category := c.options.intent.category
      description := c.options.intent.description
      tags := c.options.intent.tags
      parentIntent := c.options.intent.parentIntent
      lifecycle := (provenance c.options.provenance).lifecycle }
  reasoning := c.options.reasoning
  confidence := c.options.confidence
  toolCalls := (provenance c.options.provenance).toolCalls

/-- A commit as the reading operations return it. -/
def shown (provenance : String → Provenance) (c : Commit Id) :
    CommitRecord Id :=
  (recordOf provenance c).enforceCaps

@[simp] theorem shown_id (provenance : String → Provenance) (c : Commit Id) :
    (shown provenance c).id = c.id := rfl

@[simp] theorem shown_timestamp (provenance : String → Provenance)
    (c : Commit Id) : (shown provenance c).timestamp = c.timestamp := rfl

/-! ## Filters -/

/-- Composable query filters.  All optional, combined with AND. -/
structure QueryFilters where
  path : Option String := none
  agentId : Option String := none
  intentCategory : Option String := none
  tags : Option (List String) := none
  authorityPrincipal : Option String := none
  reasoningContains : Option String := none
  confidenceRange : Option (F64 × F64) := none
  intentStatus : Option String := none
  outcome : Option String := none
  dateFrom : Option ℤ := none
  dateTo : Option ℤ := none
  hasDeviations : Option Bool := none

/-- The `Debug` form of a status. -/
def debugStatus : IntentStatus → String
  | .proposed => "Proposed"
  | .authorized => "Authorized"
  | .inProgress => "InProgress"
  | .completed => "Completed"
  | .failed => "Failed"
  | .blocked => "Blocked"

/-- The `Debug` form of an outcome. -/
def debugOutcome : PostgresRows.Outcome → String
  | .fulfilled => "Fulfilled"
  | .partiallyFulfilled => "PartiallyFulfilled"
  | .failed => "Failed"
  | .deferred => "Deferred"

/-- A resolution was filed that has deviations. -/
def CommitRecord.deviates (c : CommitRecord Id) : Bool :=
  c.intent.lifecycle.resolution.any fun r => !r.deviations.isEmpty

section Filters

variable (texts : History.Texts) (text : TextTables)

/-- The words of a query are in the reasoning or in the description. -/
def mentions (c : CommitRecord Id) (query : String) : Bool :=
  let words := text.toLowercase query
  (c.reasoning.any fun r => contains (text.toLowercase r) words) ||
    contains (text.toLowercase c.intent.description) words

def matchesFilters (filters : QueryFilters) (c : CommitRecord Id) : Bool :=
  filters.agentId.all (fun agent => c.agentId == agent) &&
  filters.intentCategory.all (fun category =>
    eqIgnoreAsciiCase (texts.debugCategory c.intent.category) category) &&
  filters.tags.all (fun tags =>
    tags.all fun tag => c.intent.tags.contains tag) &&
  filters.authorityPrincipal.all (fun principal =>
    c.authority.principal == principal) &&
  filters.reasoningContains.all (mentions text c) &&
  filters.confidenceRange.all (fun range =>
    c.confidence.any fun x => range.1.le x && x.le range.2) &&
  filters.intentStatus.all (fun status =>
    eqIgnoreAsciiCase (debugStatus c.intent.lifecycle.status) status) &&
  filters.dateFrom.all (fun date => !decide (c.timestamp < date)) &&
  filters.dateTo.all (fun date => !decide (date < c.timestamp)) &&
  (filters.hasDeviations != some true || c.deviates)

def filterCommits (commits : List (CommitRecord Id)) (filters : QueryFilters) :
    List (CommitRecord Id) :=
  commits.filter (matchesFilters texts text filters)

end Filters

/-! ## The operations -/

def COMMIT_QUERY_SCAN_FLOOR : ℕ := 10000

/-- The largest `usize`. -/
def USIZE_MAX : ℕ := 2 ^ 64 - 1

/-- How far a query walks for a given page. -/
def commitQueryScan (offset limit : ℕ) : ℕ :=
  max COMMIT_QUERY_SCAN_FLOOR (min (offset + limit) USIZE_MAX)

section Operations

variable (provenance : String → Provenance) (texts : History.Texts)
  (text : TextTables) (repo : Repository) (store : Storage Id)

/-- The commits of `log_dag`, and whether the limit stopped the walk. -/
def logDag (refName : String) (limit : ℕ) :
    Except (RepoError Id) (List (CommitRecord Id) × Bool) := do
  let head ← repo.resolveRef store refName
  let walk := store.commits.listCommitsDag head limit
  .ok (walk.commits.map (shown provenance), walk.truncated)

def queryCommitsPaged (refName : String) (filters : QueryFilters)
    (limit offset : ℕ) : Except (RepoError Id) (List (CommitRecord Id)) := do
  let scan := commitQueryScan offset limit
  let walk ← logDag provenance repo store refName scan
  let filtered := filterCommits texts text walk.1 filters
  .ok ((filtered.drop offset).take limit)

end Operations

/-! ## What a query asks for -/

/-- The commit satisfies every filter that is set, the path filter aside. -/
structure Satisfies (texts : History.Texts) (text : TextTables)
    (filters : QueryFilters) (c : CommitRecord Id) : Prop where
  agent : ∀ a, filters.agentId = some a → c.agentId = a
  category : ∀ k, filters.intentCategory = some k →
    eqIgnoreAsciiCase (texts.debugCategory c.intent.category) k = true
  tagged : ∀ tags, filters.tags = some tags → ∀ t ∈ tags, t ∈ c.intent.tags
  principal : ∀ p, filters.authorityPrincipal = some p →
    c.authority.principal = p
  mentioned : ∀ q, filters.reasoningContains = some q →
    mentions text c q = true
  confident : ∀ low high, filters.confidenceRange = some (low, high) →
    ∃ x, c.confidence = some x ∧ low.le x = true ∧ x.le high = true
  status : ∀ k, filters.intentStatus = some k →
    eqIgnoreAsciiCase (debugStatus c.intent.lifecycle.status) k = true
  outcome : ∀ k, filters.outcome = some k →
    ∃ r, c.intent.lifecycle.resolution = some r ∧
      eqIgnoreAsciiCase (debugOutcome r.outcome) k = true
  since : ∀ t, filters.dateFrom = some t → t ≤ c.timestamp
  upTo : ∀ t, filters.dateTo = some t → c.timestamp ≤ t
  deviating : ∀ b, filters.hasDeviations = some b → c.deviates = b

/-- The filters as the code counts them: no deviations asked for is nothing
asked. -/
def QueryFilters.counted (filters : QueryFilters) : QueryFilters :=
  { filters with hasDeviations := filters.hasDeviations.filter id }

omit [Digest Id] in
/-- The code's checks are the filters it counts, apart from the outcome. -/
theorem matchesFilters_iff (texts : History.Texts) (text : TextTables)
    {filters : QueryFilters} (houtcome : filters.outcome = none)
    (c : CommitRecord Id) :
    matchesFilters texts text filters c = true ↔
      Satisfies texts text filters.counted c := by
  have hdev : (filters.hasDeviations != some true || c.deviates) = true ↔
      ∀ b, filters.hasDeviations.filter id = some b → c.deviates = b := by
    rcases h : filters.hasDeviations with _ | b
    · simp
    · cases b <;> simp [Option.filter]
  simp only [matchesFilters, Bool.and_eq_true, Option.all_eq_true,
    List.all_eq_true, Option.any_eq_true, beq_iff_eq, hdev,
    Bool.not_eq_true', decide_eq_false_iff_not, not_lt, List.contains_iff_mem]
  constructor
  · rintro ⟨⟨⟨⟨⟨⟨⟨⟨⟨hagent, hcat⟩, htags⟩, hprin⟩, hment⟩, hconf⟩, hstatus⟩,
      hfrom⟩, hto⟩, hdev⟩
    exact
      { agent := hagent
        category := hcat
        tagged := htags
        principal := hprin
        mentioned := hment
        confident := fun low high h => hconf (low, high) h
        status := hstatus
        outcome := fun k hk => by simp [QueryFilters.counted, houtcome] at hk
        since := hfrom
        upTo := hto
        deviating := hdev }
  · intro h
    exact ⟨⟨⟨⟨⟨⟨⟨⟨⟨h.agent, h.category⟩, h.tagged⟩, h.principal⟩, h.mentioned⟩,
      fun range hr => h.confident range.1 range.2 hr⟩, h.status⟩, h.since⟩,
      h.upTo⟩, h.deviating⟩

section Pages

variable (provenance : String → Provenance) (texts : History.Texts)
  (text : TextTables) (repo : Repository) (store : Storage Id)

/-- A stored commit of the history of `head` that satisfies the filters. -/
def Answers (filters : QueryFilters) (head : Id) (c : CommitRecord Id) : Prop :=
  ∃ commit : Commit Id, store.getCommit commit.id = some commit ∧
    store.commits.IsAncestor commit.id head ∧
    c = shown provenance commit ∧ Satisfies texts text filters c

/-- The pages of a query, up to the first that is empty. -/
structure Pages (refName : String) (filters : QueryFilters) (size : ℕ)
    (count : ℕ) (page : ℕ → List (CommitRecord Id)) : Prop where
  returned : ∀ k ≤ count,
    queryCommitsPaged provenance texts text repo store refName filters size
      (k * size) = .ok (page k)
  nonempty : ∀ k < count, page k ≠ []
  empty : page count = []

/-- The pages hold every answer once, and nothing else. -/
def PagesExact (refName : String) (filters : QueryFilters) (size : ℕ)
    (head : Id) : Prop :=
  ∀ count page,
    Pages provenance texts text repo store refName filters size count page →
    (((List.range count).flatMap page).map fun c => c.id).Nodup ∧
    ∀ c, c ∈ (List.range count).flatMap page ↔
      Answers provenance texts text store filters head c

/-- The history in the order that the walk lists it. -/
def listing (head : Id) : List (CommitRecord Id) :=
  ((store.commits.dagTrace head).map Prod.fst).map (shown provenance)

/-- Each answer is among the commits scanned for the page it belongs to. -/
def AnswersScanned (filters : QueryFilters) (size : ℕ) (head : Id) : Prop :=
  Paging.Scanned (listing provenance store head)
    (matchesFilters texts text filters)
    (fun k => commitQueryScan (k * size) size) size

/-! ## The pages of a query -/

theorem nodup_ids_listing (head : Id) :
    ((listing provenance store head).map fun c => c.id).Nodup := by
  have hids : (listing provenance store head).map (fun c => c.id) =
      (store.commits.dagTrace head).map fun e => e.1.id := by
    rw [listing, List.map_map, List.map_map]
    rfl
  rw [hids]
  exact store.commits.nodup_dagTrace head

theorem length_listing (head : Id) :
    (listing provenance store head).length =
      (store.commits.storedAncestry head).card := by
  rw [listing, List.length_map, List.length_map,
    store.commits.length_dagTrace head]

theorem mem_listing_iff {head : Id} {c : CommitRecord Id} :
    c ∈ listing provenance store head ↔
      ∃ commit : Commit Id, store.getCommit commit.id = some commit ∧
        store.commits.IsAncestor commit.id head ∧
        c = shown provenance commit := by
  simp only [listing, List.mem_map]
  constructor
  · rintro ⟨commit, ⟨e, he, rfl⟩, rfl⟩
    obtain ⟨hget, hanc⟩ := store.commits.ancestor_of_mem_dagTrace head he
    exact ⟨e.1, hget, hanc, rfl⟩
  · rintro ⟨commit, hget, hanc, rfl⟩
    have hmem := store.commits.mem_dagTrace_of_ancestor head hget hanc
    exact ⟨commit, List.mem_map.mp hmem, rfl⟩

theorem queryCommitsPaged_eq {refName : String} {head : Id}
    (hhead : repo.resolveRef store refName = .ok head)
    (filters : QueryFilters) (size k : ℕ) :
    queryCommitsPaged provenance texts text repo store refName filters size
        (k * size) =
      .ok (Paging.page (listing provenance store head)
        (matchesFilters texts text filters)
        (fun k => commitQueryScan (k * size) size) size k) := by
  simp only [queryCommitsPaged, logDag, hhead, bind, Except.bind,
    store.commits.listCommitsDag_commits head, List.map_take, filterCommits,
    Paging.page, Paging.seen, listing]

variable {provenance texts text repo store} in
/-- The pages up to the first empty one are those of the filtered history. -/
theorem Pages.eq {refName : String} {head : Id} {filters : QueryFilters}
    {size count : ℕ} {page : ℕ → List (CommitRecord Id)}
    (hhead : repo.resolveRef store refName = .ok head)
    (h : Pages provenance texts text repo store refName filters size count
      page) :
    Paging.FirstEmpty (listing provenance store head)
        (matchesFilters texts text filters)
        (fun k => commitQueryScan (k * size) size) size count ∧
      (List.range count).flatMap page =
        Paging.pages (listing provenance store head)
          (matchesFilters texts text filters)
          (fun k => commitQueryScan (k * size) size) size count := by
  have hpage : ∀ k ≤ count, page k =
      Paging.page (listing provenance store head)
        (matchesFilters texts text filters)
        (fun k => commitQueryScan (k * size) size) size k := by
    intro k hk
    have hreturned := h.returned k hk
    rw [queryCommitsPaged_eq provenance texts text repo store hhead]
      at hreturned
    exact (Except.ok.inj hreturned).symm
  refine ⟨⟨?_, ?_⟩, ?_⟩
  · rw [← hpage count le_rfl]
    exact h.empty
  · intro k hk
    rw [← hpage k hk.le]
    exact h.nonempty k hk
  · refine List.flatMap_congr fun k hk => ?_
    exact hpage k (List.mem_range.mp hk).le

theorem exists_pages {refName : String} {head : Id}
    (hhead : repo.resolveRef store refName = .ok head) (filters : QueryFilters)
    {size : ℕ} (hsize : 0 < size) :
    ∃ count page, Pages provenance texts text repo store refName filters size
      count page := by
  obtain ⟨count, hempty, hearlier⟩ :=
    Paging.exists_firstEmpty (listing provenance store head)
      (matchesFilters texts text filters)
      (fun k => commitQueryScan (k * size) size) hsize
  exact ⟨count, _, fun k _ =>
    queryCommitsPaged_eq provenance texts text repo store hhead filters size k,
    hearlier, hempty⟩

/-- The pages of a query hold answers only, and none
twice; they hold all answers exactly when each is among the commits scanned for
its page, as in every history of at most ten thousand commits. -/
theorem queryPages_exact {refName : String} {head : Id}
    (hhead : repo.resolveRef store refName = .ok head)
    {filters : QueryFilters} (houtcome : filters.outcome = none) {size : ℕ}
    (hsize : 0 < size) :
    (∃ count page, Pages provenance texts text repo store refName filters size
      count page) ∧
    ∀ count page,
      Pages provenance texts text repo store refName filters size count page →
      (((List.range count).flatMap page).map fun c => c.id).Nodup ∧
      (∀ c ∈ (List.range count).flatMap page,
        Answers provenance texts text store filters.counted head c) ∧
      ((∀ c, Answers provenance texts text store filters.counted head c →
          c ∈ (List.range count).flatMap page) ↔
        AnswersScanned provenance texts text store filters size head) ∧
      ((store.commits.storedAncestry head).card ≤ COMMIT_QUERY_SCAN_FLOOR →
        AnswersScanned provenance texts text store filters size head) := by
  have hids := nodup_ids_listing provenance store head
  have hnodup : (listing provenance store head).Nodup := hids.of_map
  have hanswer : ∀ c, c ∈ (listing provenance store head).filter
      (matchesFilters texts text filters) ↔
      Answers provenance texts text store filters.counted head c := by
    intro c
    rw [List.mem_filter, mem_listing_iff, matchesFilters_iff texts text houtcome]
    constructor
    · rintro ⟨⟨commit, hget, hanc, hc⟩, hsat⟩
      exact ⟨commit, hget, hanc, hc, hsat⟩
    · rintro ⟨commit, hget, hanc, hc, hsat⟩
      exact ⟨⟨commit, hget, hanc, hc⟩, hsat⟩
  constructor
  · exact exists_pages provenance texts text repo store hhead filters hsize
  · intro count page h
    obtain ⟨hfirst, hpages⟩ := h.eq hhead
    have hsub := Paging.pages_sublist (listing provenance store head)
      (matchesFilters texts text filters)
      (fun k => commitQueryScan (k * size) size) size count
    rw [hpages]
    refine ⟨?_, ?_, ?_, ?_⟩
    · exact hids.sublist ((hsub.trans List.filter_sublist).map _)
    · intro c hc
      exact (hanswer c).mp (hsub.subset hc)
    · unfold AnswersScanned
      rw [← Paging.complete_iff hnodup hsize hfirst]
      exact forall_congr' fun c => imp_congr_left (hanswer c).symm
    · intro hsmall
      apply Paging.scanned_of_length_le
      intro k
      rw [length_listing]
      exact hsmall.trans (Nat.le_max_left _ _)

end Pages

/-! ## A history in one line -/

theorem zero_notMem_take_trace {commits : CommitStore Id} {line : ℕ → Commit Id}
    (hparents : ∀ n, (line (n + 1)).parents = [(line n).id])
    (hne : ∀ n, line 0 ≠ line (n + 1)) {n : ℕ}
    (hget : ∀ k ≤ n, commits.get (line k).id = some (line k)) (fuel : ℕ)
    (seen : List Id) :
    line 0 ∉ ((BreadthFirst.trace commits.get (fun c => c.parents) fuel
      [(line n).id] seen).map Prod.fst).take n := by
  have hnil : ∀ fuel seen, BreadthFirst.trace commits.get (fun c => c.parents)
      fuel [] seen = [] := fun fuel _ => by cases fuel <;> rfl
  induction n generalizing fuel seen with
  | zero => simp
  | succ n ih =>
      cases fuel with
      | zero => simp [BreadthFirst.trace]
      | succ fuel =>
          by_cases hseen : (line (n + 1)).id ∈ seen
          · simp [BreadthFirst.trace, hseen, hnil]
          · rw [BreadthFirst.trace, if_neg hseen, hget _ le_rfl]
            simp only [List.map_cons, List.take_succ_cons, List.mem_cons,
              not_or, List.nil_append, hparents]
            refine ⟨hne n, ?_⟩
            by_cases hnext : (line n).id ∈ (line (n + 1)).id :: seen
            · rw [List.filter_cons_of_neg
                (by simpa [or_iff_not_imp_left] using hnext),
                List.filter_nil, hnil]
              simp
            · rw [List.filter_cons_of_pos (by simpa using hnext),
                List.filter_nil]
              exact ih (fun k hk => hget k (Nat.le_succ_of_le hk)) _ _

namespace Line

open ContentKey

/-- A commit for each time, on top of the one before. -/
def link : ℕ → Commit ContentKey
  | 0 => commitOf Object.emptyMap [] 0
  | n + 1 => commitOf Object.emptyMap [link n] (n + 1)

theorem link_timestamp (n : ℕ) : (link n).timestamp = n := by
  cases n <;> rfl

theorem link_zero_ne (n : ℕ) : link 0 ≠ link (n + 1) := by
  intro h
  have htime := congrArg (fun c => c.timestamp) h
  simp only [link_timestamp] at htime
  omega

theorem link_parents (n : ℕ) : (link (n + 1)).parents = [(link n).id] := rfl

def links (n : ℕ) : List (Commit ContentKey) := (List.range (n + 1)).map link

def store (n : ℕ) : Storage ContentKey :=
  { Storage.new with commits := AddressedMap.empty.putAll (links n) }.putRef
    "default" "main" (link n).id

theorem get_link {k n : ℕ} (h : k ≤ n) :
    (store n).commits.get (link k).id = some (link k) :=
  AddressedMap.get_putAll_of_mem Commit.id_injective _
    (List.mem_map_of_mem (List.mem_range.mpr (Nat.lt_succ_of_le h)))

theorem eq_link_of_get {n : ℕ} {id : ContentKey} {c : Commit ContentKey}
    (h : (store n).commits.get id = some c) : ∃ k ≤ n, c = link k := by
  rcases AddressedMap.get_putAll h with hempty | hmem
  · rw [AddressedMap.get_empty] at hempty
    contradiction
  · obtain ⟨k, hk, rfl⟩ := List.mem_map.mp hmem
    exact ⟨k, Nat.le_of_lt_succ (List.mem_range.mp hk), rfl⟩

theorem resolveRef_store (n : ℕ) :
    Repository.new.resolveRef (store n) "main" = .ok (link n).id :=
  Repository.new.resolveRef_of_refAt List.mem_cons_self
    (Storage.refAt_putRef_self _ _ _ _)

theorem isAncestor_link {k n : ℕ} (h : k ≤ n) :
    (store n).commits.IsAncestor (link 0).id (link k).id := by
  induction k with
  | zero => exact CommitStore.IsAncestor.refl _ _
  | succ k ih =>
      refine (ih (Nat.le_of_succ_le h)).trans ?_
      apply CommitStore.IsAncestor.of_mem_parents
      simp [CommitStore.parents, get_link h, link_parents]

/-- Nothing asked but the time of the first commit. -/
def early : QueryFilters := { dateTo := some 0 }

def plain : History.Texts := ⟨fun _ => "", fun _ => "", fun s => s⟩

def tables : TextTables := ⟨fun s => s, fun _ => ""⟩

/-- A provenance whose resolution failed and has a deviation. -/
def failed : Provenance where
  authority := ⟨"owner", .wildcard, 0, none, []⟩
  lifecycle :=
    { status := .failed
      assignedTo := []
      resolution := some
        { summary := ""
          deviations := [⟨"moved", "no room", .low, none⟩]
          commits := []
          branchesExplored := []
          outcome := .failed
          confidence := F64.one }
      notification := none }
  toolCalls := []

/-- The first commit of the line, as it is shown. -/
def first : CommitRecord ContentKey := shown (fun _ => failed) (link 0)

variable (n : ℕ)

theorem eq_link_of_mem_listing {c : CommitRecord ContentKey}
    (h : c ∈ listing (fun _ => failed) (store n) (link n).id) :
    ∃ k ≤ n, c = shown (fun _ => failed) (link k) := by
  obtain ⟨commit, hget, -, rfl⟩ := (mem_listing_iff _ _).mp h
  obtain ⟨k, hk, rfl⟩ := eq_link_of_get hget
  exact ⟨k, hk, rfl⟩

theorem first_mem_listing :
    first ∈ listing (fun _ => failed) (store n) (link n).id :=
  (mem_listing_iff _ _).mpr
    ⟨link 0, get_link (Nat.zero_le n), isAncestor_link le_rfl, rfl⟩

/-- The first commit is not among as many commits as follow it. -/
theorem first_notMem_take :
    first ∉ (listing (fun _ => failed) (store n) (link n).id).take n := by
  intro h
  rw [listing, ← List.map_take] at h
  obtain ⟨c, hc, hfirst⟩ := List.mem_map.mp h
  have hid : c = link 0 :=
    Commit.id_injective (congrArg CommitRecord.id hfirst)
  rw [hid] at hc
  exact zero_notMem_take_trace link_parents link_zero_ne
    (fun _ hk => get_link hk) _ _ hc

theorem eq_first_of_early {c : CommitRecord ContentKey}
    (h : c ∈ listing (fun _ => failed) (store n) (link n).id)
    (hearly : matchesFilters plain tables early c = true) : c = first := by
  obtain ⟨k, -, rfl⟩ := eq_link_of_mem_listing n h
  have htime : ¬0 < (link k).timestamp := by
    intro hlate
    simp [matchesFilters, early, hlate] at hearly
  rw [link_timestamp] at htime
  have hk : k = 0 := by omega
  rw [hk]
  rfl

/-- The only commit of a history is listed by every scan. -/
theorem answersScanned_single (filters : QueryFilters) :
    AnswersScanned (fun _ => failed) plain tables (store 0) filters 1
      (link 0).id := by
  apply Paging.scanned_of_length_le
  intro k
  have hsubset : ∀ c ∈ listing (fun _ => failed) (store 0) (link 0).id,
      c ∈ [first] := by
    intro c hc
    obtain ⟨k, hk, rfl⟩ := eq_link_of_mem_listing 0 hc
    rw [Nat.le_zero.mp hk]
    exact List.mem_singleton_self _
  have hnodup := (nodup_ids_listing (fun _ => failed) (store 0)
    (link 0).id).of_map
  have hlen := (hnodup.subperm hsubset).length_le
  have hfloor : [first].length ≤ COMMIT_QUERY_SCAN_FLOOR := by decide
  exact hlen.trans (hfloor.trans (Nat.le_max_left _ _))

theorem not_pagesExact_of_passes {filters : QueryFilters}
    (hpasses : matchesFilters plain tables filters first = true)
    (hnot : ¬Satisfies plain tables filters first) :
    ¬PagesExact (fun _ => failed) plain tables Repository.new (store 0) "main"
      filters 1 (link 0).id := by
  intro hexact
  obtain ⟨count, page, h⟩ := exists_pages (fun _ => failed) plain tables
    Repository.new (store 0) (resolveRef_store 0) filters Nat.one_pos
  obtain ⟨hfirst, hpages⟩ := h.eq (resolveRef_store 0)
  have hnodup := (nodup_ids_listing (fun _ => failed) (store 0)
    (link 0).id).of_map
  have hmem := (Paging.complete_iff hnodup Nat.one_pos hfirst).mpr
    (answersScanned_single filters) first
    (List.mem_filter.mpr ⟨first_mem_listing 0, hpasses⟩)
  rw [← hpages] at hmem
  obtain ⟨-, -, -, -, hsat⟩ := ((hexact count page h).2 first).mp hmem
  exact hnot hsat

end Line

open Line in
/-- A commit behind ten thousand others is not found although it is the answer;
no deviations asked for brings commits that have some; and an outcome asked for
brings commits with another. -/
theorem queryPages_miss_first :
    ¬PagesExact (fun _ => failed) plain tables Repository.new
      (store COMMIT_QUERY_SCAN_FLOOR) "main" early 1
      (link COMMIT_QUERY_SCAN_FLOOR).id ∧
    ¬PagesExact (fun _ => failed) plain tables Repository.new (store 0) "main"
      { hasDeviations := some false } 1 (link 0).id ∧
    ¬PagesExact (fun _ => failed) plain tables Repository.new (store 0) "main"
      { outcome := some "Fulfilled" } 1 (link 0).id := by
  refine ⟨fun hexact => ?_, ?_, ?_⟩
  · obtain ⟨count, page, h⟩ := exists_pages (fun _ => failed) plain tables
      Repository.new _ (resolveRef_store COMMIT_QUERY_SCAN_FLOOR) early
      Nat.one_pos
    obtain ⟨hfirst, -⟩ := h.eq (resolveRef_store _)
    -- The first page is empty, so there are no others before it.
    have hcount : count = 0 := by
      by_contra hpos
      have hpage := (Paging.page_ne_nil_iff Nat.one_pos 0).mp
        (hfirst.2 0 (Nat.pos_of_ne_zero hpos))
      rw [Nat.zero_mul] at hpage
      obtain ⟨c, hc⟩ := List.exists_mem_of_length_pos hpage
      obtain ⟨hlisted, hearly⟩ := List.mem_filter.mp hc
      have hone := eq_first_of_early _ (List.mem_of_mem_take hlisted) hearly
      rw [hone] at hlisted
      exact first_notMem_take _ hlisted
    have hanswer : Answers (fun _ => failed) plain tables
        (store COMMIT_QUERY_SCAN_FLOOR) early (link COMMIT_QUERY_SCAN_FLOOR).id
        first := by
      refine ⟨link 0, get_link (Nat.zero_le _), isAncestor_link le_rfl, rfl, ?_⟩
      have hpasses : matchesFilters plain tables early first = true := rfl
      exact (matchesFilters_iff plain tables rfl first).mp hpasses
    have hmem := ((hexact count page h).2 first).mpr hanswer
    rw [hcount] at hmem
    exact List.not_mem_nil hmem
  · apply not_pagesExact_of_passes rfl
    intro hsat
    have hnone : first.deviates = false := hsat.deviating false rfl
    contradiction
  · apply not_pagesExact_of_passes rfl
    intro hsat
    obtain ⟨r, hr, hsame⟩ := hsat.outcome "Fulfilled" rfl
    cases hr
    contradiction

open Line in
theorem queryPages_exact_first :
    ∃ count page, Pages (fun _ => failed) plain tables Repository.new (store 0)
      "main" early 1 count page :=
  (queryPages_exact (fun _ => failed) plain tables Repository.new (store 0)
    (resolveRef_store 0) rfl Nat.one_pos).1

end Query

end AgentStateGraph
