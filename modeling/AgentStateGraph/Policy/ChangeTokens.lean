import AgentStateGraph.Core.LocatedDiff
import AgentStateGraph.Tree.Values

/-!
# Change tokens

Before a speculation is promoted, the changes it makes are summed up in tokens,
which policies are asked about.  A token is read off the path texts of a diff.
A key that is added or removed stands under the path of its map, and a change
of kind under the path of what changed, so a subtree that comes, goes or is
replaced from above is not seen by the path that is watched; and a path text
may begin like a watched one without being below it.
-/

namespace AgentStateGraph

variable {Id : Type} [Digest Id]

namespace ChangeTokens

/-! ## Inferring tokens -/

def LARGE_CHANGE_THRESHOLD : ℕ := 50

def diffOpPath : DiffOp → String
  | .setValue path .. | .addKey path .. | .removeKey path ..
  | .addElement path .. | .removeElement path .. | .addToSet path ..
  | .removeFromSet path .. | .changeType path .. => path

def isRemoval : DiffOp → Bool
  | .removeKey .. | .removeElement .. | .removeFromSet .. => true
  | _ => false

def isChangeType : DiffOp → Bool
  | .changeType .. => true
  | _ => false

/-- A `"reindexed": true` marker. -/
def isReindexMarker : DiffOp → Bool
  | .addKey _ key value => key == "reindexed" && value == .bool true
  | _ => false

def underSchemaVersion (path : String) : Bool :=
  startsWith path "/_meta/schema_version" || path == "/_meta/schema_version"

def underMigrations (path : String) : Bool :=
  startsWith path "/_meta/migrations/" || path == "/_meta/migrations"

def underIndex (path : String) : Bool :=
  startsWith path "/index/" || path == "/index"

/-- What was seen of a diff. -/
structure Flags where
  destructive : Bool
  refRewrite : Bool
  schemaChange : Bool
  migration : Bool
  reindex : Bool

/-- One turn of the loop over the changes. -/
def Flags.note (f : Flags) (op : DiffOp) : Flags where
  destructive := f.destructive || isRemoval op
  refRewrite := f.refRewrite || isChangeType op
  schemaChange := f.schemaChange || underSchemaVersion (diffOpPath op)
  migration := f.migration || underMigrations (diffOpPath op)
  reindex := f.reindex || (underIndex (diffOpPath op) || isReindexMarker op)

def flagsOf (ops : List DiffOp) : Flags :=
  ops.foldl Flags.note ⟨false, false, false, false, false⟩

def inferTokensFromDiff (ops : List DiffOp) : List String :=
  let flags := flagsOf ops
  (if flags.destructive then ["destructive"] else []) ++
    (if flags.schemaChange then ["schema-change"] else []) ++
    (if flags.refRewrite then ["ref-rewrite"] else []) ++
    (if flags.reindex then ["reindex"] else []) ++
    (if flags.migration then ["migration"] else []) ++
    (if LARGE_CHANGE_THRESHOLD < ops.length then ["large"] else [])

/-! ## Tokens by the changes -/

/-- A flag is up once some change has put it up. -/
theorem foldl_note {flag : Flags → Bool} {seen : DiffOp → Bool}
    (h : ∀ f op, flag (f.note op) = (flag f || seen op)) (f : Flags)
    (ops : List DiffOp) :
    flag (ops.foldl Flags.note f) = (flag f || ops.any seen) := by
  induction ops generalizing f with
  | nil => simp
  | cons op ops ih => rw [List.foldl_cons, ih, h, List.any_cons, Bool.or_assoc]

theorem mem_tokens_iff (ops : List DiffOp) :
    ("destructive" ∈ inferTokensFromDiff ops ↔ ∃ op ∈ ops, isRemoval op = true) ∧
      ("ref-rewrite" ∈ inferTokensFromDiff ops ↔
        ∃ op ∈ ops, isChangeType op = true) ∧
      ("schema-change" ∈ inferTokensFromDiff ops ↔
        ∃ op ∈ ops, underSchemaVersion (diffOpPath op) = true) ∧
      ("migration" ∈ inferTokensFromDiff ops ↔
        ∃ op ∈ ops, underMigrations (diffOpPath op) = true) ∧
      ("reindex" ∈ inferTokensFromDiff ops ↔
        ∃ op ∈ ops, underIndex (diffOpPath op) = true ∨
          isReindexMarker op = true) := by
  have hdestructive : (flagsOf ops).destructive = ops.any isRemoval :=
    foldl_note (fun _ _ => rfl) _ _
  have hrewrite : (flagsOf ops).refRewrite = ops.any isChangeType :=
    foldl_note (fun _ _ => rfl) _ _
  have hschema : (flagsOf ops).schemaChange =
      ops.any fun op => underSchemaVersion (diffOpPath op) :=
    foldl_note (fun _ _ => rfl) _ _
  have hmigration : (flagsOf ops).migration =
      ops.any fun op => underMigrations (diffOpPath op) :=
    foldl_note (fun _ _ => rfl) _ _
  have hreindex : (flagsOf ops).reindex =
      ops.any fun op => underIndex (diffOpPath op) || isReindexMarker op :=
    foldl_note (fun _ _ => rfl) _ _
  simp [inferTokensFromDiff, hdestructive, hrewrite, hschema, hmigration,
    hreindex]

/-! ## Places where two trees are told apart -/

/-- Two objects are told apart, whatever their children are. -/
def Told (o n : Object Id) : Prop :=
  match o, n with
  | .atom a, .atom b => a.partialEq b = false
  | .node (.set s), .node (.set t) => ∃ id, ¬(id ∈ s ↔ id ∈ t)
  | .node (.map s), .node (.map t) => ∃ k, ¬(k ∈ s ↔ k ∈ t)
  | .node (.list s), .node (.list t) => s.length ≠ t.length
  | _, _ => True

/-- Both trees have the place, and are told apart at it. -/
def ChangedAt (store : ObjectStore Id) (base new : Id)
    (loc : List PathComponent) : Prop :=
  ∃ o n, objectAt store base loc = some o ∧ objectAt store new loc = some n ∧
    o ≠ n ∧ Told o n

section Places

variable {store : ObjectStore Id} {base new x y : Id}
  {loc : List PathComponent} {o n : Object Id}

omit [Digest Id] in
theorem told_of_kinds (h : sameKind o n = false) : o ≠ n ∧ Told o n := by
  match o, n with
  | .atom _, .node _ | .node (.map _), .atom _ | .node (.list _), .atom _
  | .node (.set _), .atom _ => exact ⟨by simp, trivial⟩
  | .node (.map _), .node (.list _) | .node (.map _), .node (.set _)
  | .node (.list _), .node (.map _) | .node (.list _), .node (.set _)
  | .node (.set _), .node (.map _) | .node (.set _), .node (.list _) =>
      exact ⟨by simp, trivial⟩
  | .atom _, .atom _ | .node (.map _), .node (.map _)
  | .node (.list _), .node (.list _) | .node (.set _), .node (.set _) =>
      exact absurd h (by simp [sameKind])

omit [Digest Id] in
theorem childIdAt_map_isSome (m : BTreeMap String Id) (k : String) :
    (childIdAt (.node (.map m)) (.key k)).isSome = true ↔ k ∈ m := by
  simp [childIdAt]

omit [Digest Id] in
theorem childIdAt_list_isSome (l : List Id) (i : ℕ) :
    (childIdAt (.node (.list l)) (.index i)).isSome = true ↔ i < l.length := by
  simp [childIdAt]

omit [Digest Id] in
/-- Two maps or two lists are told apart by what children they have. -/
theorem told_iff_of_paired (h : Paired o n) :
    (o ≠ n ∧ Told o n) ↔
      ∃ c, ¬((childIdAt o c).isSome = true ↔
        (childIdAt n c).isSome = true) := by
  constructor
  · rintro ⟨-, htold⟩
    rcases h with ⟨s, t, rfl, rfl⟩ | ⟨s, t, rfl, rfl⟩
    · obtain ⟨k, hk⟩ := htold
      refine ⟨.key k, ?_⟩
      rw [childIdAt_map_isSome, childIdAt_map_isSome]
      exact hk
    · have hlen : s.length ≠ t.length := htold
      refine ⟨.index (min s.length t.length), ?_⟩
      rw [childIdAt_list_isSome, childIdAt_list_isSome]
      omega
  · rintro ⟨c, hc⟩
    refine ⟨?_, ?_⟩
    · rintro rfl
      exact hc Iff.rfl
    · rcases h with ⟨s, t, rfl, rfl⟩ | ⟨s, t, rfl, rfl⟩
      · match c, hc with
        | .key k, hc =>
            rw [childIdAt_map_isSome, childIdAt_map_isSome] at hc
            exact ⟨k, hc⟩
        | .index _, hc => exact absurd Iff.rfl hc
      · match c, hc with
        | .key _, hc => exact absurd Iff.rfl hc
        | .index i, hc =>
            rw [childIdAt_list_isSome, childIdAt_list_isSome] at hc
            intro hlen
            exact hc (by rw [hlen])

/-- What is said of a child on one side only stands under its container. -/
theorem diffOpPath_gone (c : PathComponent) (x : Id) :
    diffOpPath (goneOp store loc c x) = StatePath.toString ⟨loc⟩ := by
  cases c <;> rfl

theorem diffOpPath_come (c : PathComponent) (y : Id) :
    diffOpPath (comeOp store loc c y) = StatePath.toString ⟨loc⟩ := by
  cases c <;> rfl

theorem changedAt_of_mem {fuel : ℕ} (h : StandsAt store base new loc x y o n)
    (hne : x ≠ y) {l : LocatedOp}
    (hl : l ∈ locatedObjects store fuel loc o n) :
    ∃ place, ChangedAt store base new place ∧
      diffOpPath l.op = StatePath.toString ⟨place⟩ := by
  induction fuel generalizing loc x y o n with
  | zero => exact absurd hl List.not_mem_nil
  | succ fuel ih =>
      have hchanged : o ≠ n ∧ Told o n → ChangedAt store base new loc :=
        fun htold => ⟨o, n, h.objectLeft, h.objectRight, htold⟩
      have hobjects : o ≠ n := by
        rintro rfl
        exact hne ((ObjectStore.id_eq_of_get h.getLeft).symm.trans
          (ObjectStore.id_eq_of_get h.getRight))
      rcases mem_locatedObjects_cases hl with ⟨hkind, rfl⟩ |
        ⟨a, b, rfl, rfl, hequal, rfl⟩ | ⟨hpaired, c, hop⟩ |
          ⟨s, t, op, rfl, rfl, hop, rfl⟩
      · exact ⟨loc, hchanged (told_of_kinds hkind), rfl⟩
      · exact ⟨loc, hchanged ⟨hobjects, by simpa [Told] using hequal⟩, rfl⟩
      · rcases hop with ⟨x', hx, hnone, rfl⟩ | ⟨y', hnone, hy, rfl⟩ |
          ⟨x', y', hx, hy, hl⟩
        · refine ⟨loc, hchanged ((told_iff_of_paired hpaired).mpr ⟨c, ?_⟩),
            diffOpPath_gone c x'⟩
          simp [hx, hnone]
        · refine ⟨loc, hchanged ((told_iff_of_paired hpaired).mpr ⟨c, ?_⟩),
            diffOpPath_come c y'⟩
          simp [hnone, hy]
        · obtain ⟨o', n', ho', hn', hchild⟩ := h.child hx hy
          obtain ⟨hne', hl⟩ := exists_get_of_locatedIds ho' hn' hl
          exact ih hchild hne' hl
      · rcases mem_diffSets_iff.mp hop with ⟨id, hs, ht, rfl⟩ |
          ⟨id, hs, ht, rfl⟩
        · exact ⟨loc, hchanged ⟨hobjects, id, by simp [hs, ht]⟩, rfl⟩
        · exact ⟨loc, hchanged ⟨hobjects, id, by simp [hs, ht]⟩, rfl⟩

theorem exists_mem_below {fuel : ℕ} (h : StandsAt store base new loc x y o n)
    (hfuel : Digest.rank x < fuel) {rest : List PathComponent} {x' y' : Id}
    (hx : lookupAt store (some x) rest = some x')
    (hy : lookupAt store (some y) rest = some y') (hne : x' ≠ y') :
    ∃ o' n' fuel', store.get x' = some o' ∧ store.get y' = some n' ∧
      ∀ l ∈ locatedObjects store (fuel' + 1) (loc ++ rest) o' n',
        l ∈ locatedObjects store fuel loc o n := by
  induction rest generalizing fuel loc x y o n with
  | nil =>
      cases hx
      cases hy
      obtain ⟨fuel, rfl⟩ := Nat.exists_eq_succ_of_ne_zero (Nat.ne_zero_of_lt hfuel)
      refine ⟨o, n, fuel, h.getLeft, h.getRight, ?_⟩
      rw [List.append_nil]
      exact fun l hl => hl
  | cons c rest ih =>
      rw [lookupAt_of_get h.getLeft] at hx
      rw [lookupAt_of_get h.getRight] at hy
      cases hcx : childIdAt o c with
      | none =>
          rw [hcx, lookupAt_none] at hx
          contradiction
      | some x₁ =>
          cases hcy : childIdAt n c with
          | none =>
              rw [hcy, lookupAt_none] at hy
              contradiction
          | some y₁ =>
              rw [hcx] at hx
              rw [hcy] at hy
              obtain ⟨fuel, rfl⟩ :=
                Nat.exists_eq_succ_of_ne_zero (Nat.ne_zero_of_lt hfuel)
              obtain ⟨o₁, n₁, ho₁, hn₁, hchild⟩ := h.child hcx hcy
              have hrank := ObjectStore.rank_lt_of_get h.getLeft
                (mem_childIds_of_childIdAt hcx)
              obtain ⟨o', n', fuel', ho', hn', hbelow⟩ :=
                ih hchild (by omega : Digest.rank x₁ < fuel) hx hy
              refine ⟨o', n', fuel', ho', hn', fun l hl => ?_⟩
              rw [List.append_assoc] at hbelow
              refine (mem_locatedObjects_iff (paired_of_childIdAt hcx hcy)).mpr
                ⟨c, Or.inr (Or.inr ⟨x₁, y₁, hcx, hcy, ?_⟩)⟩
              rw [locatedIds, if_neg, ho₁, hn₁]
              · exact hbelow l hl
              · rintro rfl
                rw [hx] at hy
                exact hne (Option.some.inj hy)

theorem exists_mem_of_told (fuel : ℕ) (hne : o ≠ n) (htold : Told o n) :
    ∃ l ∈ locatedObjects store (fuel + 1) loc o n,
      diffOpPath l.op = StatePath.toString ⟨loc⟩ := by
  cases hkind : sameKind o n with
  | false =>
      rw [locatedObjects_of_kinds fuel loc hkind]
      exact ⟨_, List.mem_singleton_self _, rfl⟩
  | true =>
      rcases sameKind_cases hkind with ⟨a, b, rfl, rfl⟩ | hpaired |
        ⟨s, t, rfl, rfl⟩
      · have hnot : ¬(Object.atom a : Object Id).partialEq (.atom b) = true := by
          simpa [Object.partialEq, Told] using htold
        rw [locatedObjects.eq_def]
        dsimp only
        rw [if_neg hnot]
        exact ⟨_, List.mem_singleton_self _, rfl⟩
      · obtain ⟨c, hc⟩ := (told_iff_of_paired hpaired).mp ⟨hne, htold⟩
        cases hx : childIdAt o c with
        | some x' =>
            have hnone : childIdAt n c = none := by simpa [hx] using hc
            exact ⟨_, (mem_locatedObjects_iff hpaired).mpr
              ⟨c, Or.inl ⟨x', hx, hnone, rfl⟩⟩, diffOpPath_gone c x'⟩
        | none =>
            rw [hx] at hc
            obtain ⟨y', hy⟩ : ∃ y', childIdAt n c = some y' := by
              rw [← Option.isSome_iff_exists]
              by_contra hnone
              exact hc (iff_of_false Bool.false_ne_true hnone)
            exact ⟨_, (mem_locatedObjects_iff hpaired).mpr
              ⟨c, Or.inr (Or.inl ⟨y', hx, hy, rfl⟩)⟩, diffOpPath_come c y'⟩
      · obtain ⟨id, hid⟩ := htold
        have hnot : ¬(Object.node (Node.set s)).partialEq
            (Object.node (Node.set t)) = true := by
          intro heq
          exact hne (by simpa [Object.partialEq] using heq)
        have hop : ∃ op ∈ diffSets store ⟨loc⟩ s t,
            diffOpPath op = StatePath.toString ⟨loc⟩ := by
          by_cases hs : id ∈ s
          · exact ⟨_, mem_diffSets_iff.mpr (Or.inl
              ⟨id, hs, fun ht => hid (iff_of_true hs ht), rfl⟩), rfl⟩
          · have ht : id ∈ t := by
              by_contra ht
              exact hid (iff_of_false hs ht)
            exact ⟨_, mem_diffSets_iff.mpr (Or.inr ⟨id, hs, ht, rfl⟩), rfl⟩
        obtain ⟨op, hop, hpath⟩ := hop
        rw [locatedObjects.eq_def]
        dsimp only
        rw [if_neg hnot]
        exact ⟨⟨loc, op⟩, List.mem_map_of_mem hop, hpath⟩

theorem complete_of_lookupAt (h : store.Complete x)
    {path : List PathComponent} {z : Id}
    (hz : lookupAt store (some x) path = some z) : store.Complete z := by
  induction path generalizing x with
  | nil =>
      cases hz
      exact h
  | cons c path ih =>
      obtain ⟨o, ho⟩ := h.exists_get
      rw [lookupAt_of_get ho] at hz
      cases hcx : childIdAt o c with
      | none =>
          rw [hcx, lookupAt_none] at hz
          contradiction
      | some x' =>
          rw [hcx] at hz
          exact ih (h.child ho (mem_childIds_of_childIdAt hcx)) hz

theorem exists_lost_child (hx : store.Complete x) (hy : store.Complete y)
    {path : List PathComponent} (hlost : lookupAt store (some y) path = none)
    {z : Id} (hz : lookupAt store (some x) path = some z) :
    ∃ front c x' y' o' n', lookupAt store (some x) front = some x' ∧
      lookupAt store (some y) front = some y' ∧ store.get x' = some o' ∧
      store.get y' = some n' ∧ (childIdAt o' c).isSome = true ∧
      childIdAt n' c = none := by
  induction path generalizing x y with
  | nil => exact absurd hlost (by simp)
  | cons c path ih =>
      obtain ⟨o, ho⟩ := hx.exists_get
      obtain ⟨n, hn⟩ := hy.exists_get
      rw [lookupAt_of_get ho] at hz
      rw [lookupAt_of_get hn] at hlost
      cases hcx : childIdAt o c with
      | none =>
          rw [hcx, lookupAt_none] at hz
          contradiction
      | some x₁ =>
          cases hcy : childIdAt n c with
          | none =>
              exact ⟨[], c, x, y, o, n, rfl, rfl, ho, hn, by simp [hcx], hcy⟩
          | some y₁ =>
              rw [hcx] at hz
              rw [hcy] at hlost
              obtain ⟨front, d, x', y', o', n', hx', hy', hrest⟩ := ih
                (hx.child ho (mem_childIds_of_childIdAt hcx))
                (hy.child hn (mem_childIds_of_childIdAt hcy)) hlost hz
              refine ⟨c :: front, d, x', y', o', n', ?_, ?_, hrest⟩
              · rw [lookupAt_of_get ho, hcx, hx']
              · rw [lookupAt_of_get hn, hcy, hy']

theorem exists_loss (fuel : ℕ) {c : PathComponent}
    (hhas : (childIdAt o c).isSome = true) (hnone : childIdAt n c = none) :
    ∃ l ∈ locatedObjects store (fuel + 1) loc o n,
      isRemoval l.op = true ∨ isChangeType l.op = true := by
  cases hkind : sameKind o n with
  | false =>
      rw [locatedObjects_of_kinds fuel loc hkind]
      exact ⟨_, List.mem_singleton_self _, .inr rfl⟩
  | true =>
      obtain ⟨x', hx⟩ := Option.isSome_iff_exists.mp hhas
      rcases sameKind_cases hkind with ⟨a, b, rfl, rfl⟩ | hpaired |
        ⟨s, t, rfl, rfl⟩
      · simp [childIdAt] at hx
      · refine ⟨_, (mem_locatedObjects_iff hpaired).mpr
          ⟨c, Or.inl ⟨x', hx, hnone, rfl⟩⟩, .inl ?_⟩
        cases c <;> rfl
      · simp [childIdAt] at hx

end Places

/-! ## Tokens by the trees -/

section Trees

variable {store : ObjectStore Id} {base new : Id}

/-- The changes of a diff are those that are found on the way from the
roots. -/
theorem exists_stands (hbase : store.Complete base) (hnew : store.Complete new)
    (hne : base ≠ new) :
    ∃ o n, StandsAt store base new [] base new o n ∧
      diff store base new =
        (locatedObjects store (Digest.rank base + 1) [] o n).map
          LocatedOp.op := by
  obtain ⟨o, ho⟩ := hbase.exists_get
  obtain ⟨n, hn⟩ := hnew.exists_get
  refine ⟨o, n, ⟨rfl, rfl, ho, hn, hbase, hnew⟩, ?_⟩
  rw [← map_op_locatedDiff, locatedDiff, if_neg hne, ho, hn]

theorem ne_of_objectAt {loc : List PathComponent} {o n : Object Id}
    (ho : objectAt store base loc = some o) (hn : objectAt store new loc = some n)
    (hne : o ≠ n) : base ≠ new := by
  rintro rfl
  rw [ho] at hn
  exact hne (Option.some.inj hn)

/-- What is said of two objects at a place is said of the trees. -/
theorem exists_mem_diff (hbase : store.Complete base)
    (hnew : store.Complete new) {loc : List PathComponent} {o n : Object Id}
    (ho : objectAt store base loc = some o)
    (hn : objectAt store new loc = some n) (hne : o ≠ n) :
    ∃ fuel, ∀ l ∈ locatedObjects store (fuel + 1) loc o n,
      l.op ∈ diff store base new := by
  obtain ⟨r, r', hstands, hdiff⟩ :=
    exists_stands hbase hnew (ne_of_objectAt ho hn hne)
  obtain ⟨x, hx, hgetx⟩ := Option.bind_eq_some_iff.mp ho
  obtain ⟨y, hy, hgety⟩ := Option.bind_eq_some_iff.mp hn
  have hids : x ≠ y := by
    rintro rfl
    rw [hgetx] at hgety
    exact hne (Option.some.inj hgety)
  obtain ⟨o', n', fuel, ho', hn', hbelow⟩ :=
    exists_mem_below hstands (Nat.lt_succ_self _) hx hy hids
  cases hgetx.symm.trans ho'
  cases hgety.symm.trans hn'
  refine ⟨fuel, fun l hl => ?_⟩
  rw [hdiff]
  exact List.mem_map_of_mem (hbelow l hl)

theorem exists_path_iff (hbase : store.Complete base)
    (hnew : store.Complete new) (test : String → Bool) :
    (∃ op ∈ diff store base new, test (diffOpPath op) = true) ↔
      ∃ loc, ChangedAt store base new loc ∧
        test (StatePath.toString ⟨loc⟩) = true := by
  constructor
  · rintro ⟨op, hop, htest⟩
    have hne : base ≠ new := by
      rintro rfl
      simp [diff] at hop
    obtain ⟨o, n, hstands, hdiff⟩ := exists_stands hbase hnew hne
    rw [hdiff] at hop
    obtain ⟨l, hl, rfl⟩ := List.mem_map.mp hop
    obtain ⟨place, hchanged, hpath⟩ := changedAt_of_mem hstands hne hl
    exact ⟨place, hchanged, hpath ▸ htest⟩
  · rintro ⟨loc, ⟨o, n, ho, hn, hne, htold⟩, htest⟩
    obtain ⟨fuel, hmem⟩ := exists_mem_diff hbase hnew ho hn hne
    obtain ⟨l, hl, hpath⟩ := exists_mem_of_told fuel hne htold
    exact ⟨l.op, hmem l hl, hpath ▸ htest⟩

/-- Some map of the new tree is marked as reindexed, and was not before. -/
def MarkerAdded (store : ObjectStore Id) (base new : Id) : Prop :=
  ∃ loc s t y, objectAt store base loc = some (.node (.map s)) ∧
    objectAt store new loc = some (.node (.map t)) ∧
    s["reindexed"]? = none ∧ t["reindexed"]? = some y ∧
    store.get y = some (.atom (.bool true))

theorem ofId_eq_true_iff {y : Id} :
    DiffValue.ofId store y = .bool true ↔
      store.get y = some (.atom (.bool true)) := by
  rw [DiffValue.ofId]
  cases store.get y with
  | none => simp
  | some o =>
      rcases o with a | n
      · cases a <;> simp [DiffValue.ofObject, DiffValue.ofAtom]
      · cases n <;> simp [DiffValue.ofObject, DiffValue.ofNode]

theorem exists_marker_iff (hbase : store.Complete base)
    (hnew : store.Complete new) :
    (∃ op ∈ diff store base new, isReindexMarker op = true) ↔
      MarkerAdded store base new := by
  constructor
  · rintro ⟨op, hop, hmarker⟩
    have hne : base ≠ new := by
      rintro rfl
      simp [diff] at hop
    obtain ⟨o, n, hstands, hdiff⟩ := exists_stands hbase hnew hne
    rw [hdiff] at hop
    obtain ⟨⟨location, op⟩, hl, rfl⟩ := List.mem_map.mp hop
    have hright := hstands.right_of_mem hne hl
    cases op with
    | addKey path key value =>
        simp only [isReindexMarker, Bool.and_eq_true, beq_iff_eq] at hmarker
        obtain ⟨rfl, rfl⟩ := hmarker
        obtain ⟨loc, -, -, s, t, y, hs, ht, hnone, hy, hvalue⟩ := hright
        exact ⟨loc, s, t, y, hs, ht, hnone, hy,
          ofId_eq_true_iff.mp hvalue.symm⟩
    | _ => contradiction
  · rintro ⟨loc, s, t, y, hs, ht, hnone, hy, hvalue⟩
    have hne : (Object.node (.map s) : Object Id) ≠ .node (.map t) := by
      rintro ⟨⟩
      rw [hnone] at hy
      contradiction
    obtain ⟨fuel, hmem⟩ := exists_mem_diff hbase hnew hs ht hne
    refine ⟨_, hmem ⟨loc ++ [.key "reindexed"],
      comeOp store loc (.key "reindexed") y⟩ ?_, ?_⟩
    · exact (mem_locatedObjects_iff (.inl ⟨s, t, rfl, rfl⟩)).mpr
        ⟨.key "reindexed", Or.inr (Or.inl ⟨y, hnone, hy, rfl⟩)⟩
    · simp [comeOp, isReindexMarker, ofId_eq_true_iff.mpr hvalue]

theorem exists_loss_of_unreadable (hbase : store.Complete base)
    (hnew : store.Complete new) {path : StatePath} {r : Object Id}
    (hread : treeGet store base path = .ok r)
    (hlost : ∀ r', treeGet store new path ≠ .ok r') :
    ∃ op ∈ diff store base new, isRemoval op = true ∨ isChangeType op = true := by
  obtain ⟨x, hx, -⟩ := treeGet_eq_ok_iff.mp hread
  have hnone : idAt store new path.components = none := by
    by_contra hsome
    obtain ⟨y, hy⟩ := Option.ne_none_iff_exists'.mp hsome
    obtain ⟨r', hr'⟩ :=
      (complete_of_lookupAt hnew (idAt_eq_lookupAt store new _ ▸ hy)).exists_get
    exact hlost r' (treeGet_eq_ok_iff.mpr ⟨y, hy, hr'⟩)
  rw [idAt_eq_lookupAt] at hx hnone
  obtain ⟨front, c, x', y', o, n, hx', hy', ho, hn, hhas, hmissing⟩ :=
    exists_lost_child hbase hnew hnone hx
  have hne : o ≠ n := by
    rintro rfl
    rw [hmissing] at hhas
    contradiction
  have hleft : objectAt store base front = some o := by
    rw [objectAt, hx']
    exact ho
  have hright : objectAt store new front = some n := by
    rw [objectAt, hy']
    exact hn
  obtain ⟨fuel, hmem⟩ := exists_mem_diff hbase hnew hleft hright hne
  obtain ⟨l, hl, hloss⟩ := exists_loss fuel hhas hmissing
  exact ⟨l.op, hmem l hl, hloss⟩

end Trees

/-! ## When the tokens are exact -/

def SCHEMA_VERSION : List PathComponent := [.key "_meta", .key "schema_version"]

def MIGRATIONS : List PathComponent := [.key "_meta", .key "migrations"]

def INDEX : List PathComponent := [.key "index"]

section Watched

variable (store : ObjectStore Id) (base new : Id)

/-- The subtrees at the path differ, or only one tree has one. -/
def Differs (watched : List PathComponent) : Prop :=
  idAt store base watched ≠ idAt store new watched

/-- Both trees have a place at the path or below it, and are told apart at
it. -/
def Inside (watched : List PathComponent) : Prop :=
  ∃ rest, ChangedAt store base new (watched ++ rest)

/-- The trees are told apart at a place elsewhere with a path text that is
taken for one below the path. -/
def Stray (watched : List PathComponent) (test : String → Bool) : Prop :=
  ∃ loc, ¬watched <+: loc ∧ ChangedAt store base new loc ∧
    test (StatePath.toString ⟨loc⟩) = true

variable {store base new}

theorem differs_of_inside {watched : List PathComponent}
    (h : Inside store base new watched) : Differs store base new watched := by
  obtain ⟨rest, o, n, ho, hn, hne, -⟩ := h
  intro hsame
  rw [idAt_eq_lookupAt, idAt_eq_lookupAt] at hsame
  rw [objectAt, lookupAt_append, hsame, ← lookupAt_append, ← objectAt, hn] at ho
  exact hne (Option.some.inj ho).symm

theorem exists_changedAt_iff {watched : List PathComponent}
    {test : String → Bool}
    (htest : ∀ rest, test (StatePath.toString ⟨watched ++ rest⟩) = true) :
    (∃ loc, ChangedAt store base new loc ∧
        test (StatePath.toString ⟨loc⟩) = true) ↔
      Inside store base new watched ∨ Stray store base new watched test := by
  constructor
  · rintro ⟨loc, hchanged, hpasses⟩
    by_cases hbelow : watched <+: loc
    · obtain ⟨rest, rfl⟩ := hbelow
      exact .inl ⟨rest, hchanged⟩
    · exact .inr ⟨loc, hbelow, hchanged, hpasses⟩
  · rintro (⟨rest, hchanged⟩ | ⟨loc, -, hchanged, hpasses⟩)
    · exact ⟨_, hchanged, htest rest⟩
    · exact ⟨loc, hchanged, hpasses⟩

end Watched

theorem render_append (front rest : List PathComponent) :
    StatePath.render (front ++ rest) =
      StatePath.render front ++ StatePath.render rest := by
  induction front with
  | nil => simp [StatePath.render]
  | cons c front ih => cases c <;> simp [StatePath.render, ih, String.append_assoc]

theorem render_cons_startsWith (c : PathComponent) (rest : List PathComponent) :
    ∃ text, StatePath.render (c :: rest) = "/" ++ text := by
  cases c with
  | key k => exact ⟨_, by rw [StatePath.render, String.append_assoc]⟩
  | index i => exact ⟨_, by rw [StatePath.render, String.append_assoc]⟩

theorem toString_cons_append (c : PathComponent) (front rest : List PathComponent) :
    StatePath.toString ⟨c :: front ++ rest⟩ =
      StatePath.render (c :: front) ++ StatePath.render rest := by
  rw [← render_append]
  rfl

theorem underSchemaVersion_append (rest : List PathComponent) :
    underSchemaVersion (StatePath.toString ⟨SCHEMA_VERSION ++ rest⟩) = true := by
  rw [SCHEMA_VERSION, toString_cons_append, underSchemaVersion, Bool.or_eq_true,
    startsWith_iff]
  refine .inl ?_
  rw [String.toList_append]
  exact List.prefix_append _ _

theorem at_or_under_append (c : PathComponent) (front rest : List PathComponent)
    (text : String) (htext : StatePath.render (c :: front) = text) :
    (startsWith (StatePath.toString ⟨c :: front ++ rest⟩) (text ++ "/") ||
      StatePath.toString ⟨c :: front ++ rest⟩ == text) = true := by
  rw [toString_cons_append, htext, Bool.or_eq_true]
  cases rest with
  | nil => exact .inr (by simp [StatePath.render])
  | cons d rest =>
      obtain ⟨tail, htail⟩ := render_cons_startsWith d rest
      refine .inl ((startsWith_iff _ _).mpr ?_)
      have hlist : (text ++ ("/" ++ tail)).toList =
          (text ++ "/").toList ++ tail.toList := by
        simp
      rw [htail, hlist]
      exact List.prefix_append _ _

theorem underMigrations_append (rest : List PathComponent) :
    underMigrations (StatePath.toString ⟨MIGRATIONS ++ rest⟩) = true :=
  at_or_under_append (.key "_meta") [.key "migrations"] rest
    "/_meta/migrations" (by decide)

theorem underIndex_append (rest : List PathComponent) :
    underIndex (StatePath.toString ⟨INDEX ++ rest⟩) = true :=
  at_or_under_append (.key "index") [] rest "/index" (by decide)

/-- The tokens of a diff tell what differs at the watched paths, and what can
no longer be read. -/
structure TokensExact (store : ObjectStore Id) (base new : Id) : Prop where
  schemaChange : "schema-change" ∈ inferTokensFromDiff (diff store base new) ↔
    Differs store base new SCHEMA_VERSION
  migration : "migration" ∈ inferTokensFromDiff (diff store base new) ↔
    Differs store base new MIGRATIONS
  reindex : Differs store base new INDEX →
    "reindex" ∈ inferTokensFromDiff (diff store base new)
  loss : ∀ path o, treeGet store base path = .ok o →
    (∀ o', treeGet store new path ≠ .ok o') →
      "destructive" ∈ inferTokensFromDiff (diff store base new) ∨
        "ref-rewrite" ∈ inferTokensFromDiff (diff store base new)

/-- Where a watched subtree differs, the trees are told apart inside of it, or
at a stray place; and a stray place comes with a difference. -/
structure Legible (store : ObjectStore Id) (base new : Id)
    (watched : List PathComponent) (test : String → Bool) : Prop where
  seen : Differs store base new watched →
    Inside store base new watched ∨ Stray store base new watched test
  stray : Stray store base new watched test → Differs store base new watched

theorem mem_iff_differs_iff {store : ObjectStore Id} {base new : Id}
    {watched : List PathComponent} {test : String → Bool} {p : Prop}
    (h : p ↔ Inside store base new watched ∨ Stray store base new watched test) :
    (p ↔ Differs store base new watched) ↔
      Legible store base new watched test := by
  rw [h]
  constructor
  · intro hiff
    exact ⟨hiff.mpr, fun hstray => hiff.mp (.inr hstray)⟩
  · rintro ⟨hseen, hstray⟩
    exact ⟨fun h => h.elim differs_of_inside hstray, hseen⟩

/-- The tokens of a diff are exact if and only if the two watched subtrees are
legible, and an index that differs is told apart inside of it, at a stray
place, or comes with a marker. -/
theorem tokens_exact_iff (store : ObjectStore Id) {base new : Id}
    (hbase : store.Complete base) (hnew : store.Complete new) :
    TokensExact store base new ↔
      Legible store base new SCHEMA_VERSION underSchemaVersion ∧
        Legible store base new MIGRATIONS underMigrations ∧
        (Differs store base new INDEX →
          Inside store base new INDEX ∨
            Stray store base new INDEX underIndex ∨
            MarkerAdded store base new) := by
  obtain ⟨hdestructive, hrewrite, hschema, hmigration, hreindex⟩ :=
    mem_tokens_iff (diff store base new)
  rw [exists_path_iff hbase hnew,
    exists_changedAt_iff underSchemaVersion_append] at hschema
  rw [exists_path_iff hbase hnew,
    exists_changedAt_iff underMigrations_append] at hmigration
  have hreindex' : "reindex" ∈ inferTokensFromDiff (diff store base new) ↔
      Inside store base new INDEX ∨
        Stray store base new INDEX underIndex ∨ MarkerAdded store base new := by
    rw [← or_assoc, ← exists_changedAt_iff underIndex_append,
      ← exists_path_iff hbase hnew, ← exists_marker_iff hbase hnew]
    refine hreindex.trans ?_
    simp only [and_or_left, exists_or]
  constructor
  · intro h
    exact ⟨(mem_iff_differs_iff hschema).mp h.schemaChange,
      (mem_iff_differs_iff hmigration).mp h.migration,
      fun hdiffers => hreindex'.mp (h.reindex hdiffers)⟩
  · rintro ⟨hs, hm, hi⟩
    refine ⟨(mem_iff_differs_iff hschema).mpr hs,
      (mem_iff_differs_iff hmigration).mpr hm,
      fun hdiffers => hreindex'.mpr (hi hdiffers), ?_⟩
    intro path o hread hlost
    obtain ⟨op, hop, hloss⟩ :=
      exists_loss_of_unreadable hbase hnew hread hlost
    obtain hgone | hkind := hloss
    · exact .inl (hdestructive.mpr ⟨op, hop, hgone⟩)
    · exact .inr (hrewrite.mpr ⟨op, hop, hkind⟩)

namespace FirstVersion

open ContentKey

def meta_ : Object ContentKey := mapOf []

def version : Object ContentKey := Object.string "0.4.0"

def versioned : Object ContentKey := mapOf [("schema_version", version)]

def store : ObjectStore ContentKey :=
  AddressedMap.empty.putAll
    [version, meta_, versioned, mapOf [("_meta", meta_)],
      mapOf [("_meta", versioned)]]

def before : ContentKey := (mapOf [("_meta", meta_)]).id

def after : ContentKey := (mapOf [("_meta", versioned)]).id

end FirstVersion

open FirstVersion in
set_option maxRecDepth 16384 in
theorem tokens_exact_of_first_version :
    TokensExact store before after ↔
      Legible store before after SCHEMA_VERSION underSchemaVersion ∧
        Legible store before after MIGRATIONS underMigrations ∧
        (Differs store before after INDEX →
          Inside store before after INDEX ∨
            Stray store before after INDEX underIndex ∨
            MarkerAdded store before after) := by
  have hclosed : store.isClosed = true := by decide
  exact tokens_exact_iff store
    (ObjectStore.complete_of_isClosed hclosed (by decide))
    (ObjectStore.complete_of_isClosed hclosed (by decide))

open FirstVersion in
set_option maxRecDepth 16384 in
/-- A schema version that is written for the first time has no token. -/
theorem first_version_unseen :
    store.Complete before ∧ store.Complete after ∧
      inferTokensFromDiff (diff store before after) = [] ∧
      ¬TokensExact store before after := by
  have hclosed : store.isClosed = true := by decide
  have hnone : inferTokensFromDiff (diff store before after) = [] := by decide
  refine ⟨ObjectStore.complete_of_isClosed hclosed (by decide),
    ObjectStore.complete_of_isClosed hclosed (by decide), hnone, ?_⟩
  intro h
  have hdiffers : idAt store before SCHEMA_VERSION ≠
      idAt store after SCHEMA_VERSION := by decide
  have hmem := h.schemaChange.mpr hdiffers
  rw [hnone] at hmem
  exact absurd hmem List.not_mem_nil

end ChangeTokens

end AgentStateGraph
