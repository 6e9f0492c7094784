import AgentStateGraph.Core.Digest

/-!
# A digest without collisions

`ContentKey` names an object or a commit by a length-delimited serialization
of its content.  It meets every law of `Digest`, so the laws are consistent,
and it computes, so statements about stores can be evaluated on small ones.
-/

namespace AgentStateGraph

/-! ## Length-delimited serialization -/

/-- A block of numbers behind its length. -/
def delimit (block : List ℕ) : List ℕ := block.length :: block

/-- Blocks one after another, each behind its length. -/
def delimitAll (blocks : List (List ℕ)) : List ℕ := blocks.flatMap delimit

theorem delimit_append_inj {a b r s : List ℕ}
    (h : delimit a ++ r = delimit b ++ s) : a = b ∧ r = s := by
  simp only [delimit, List.cons_append, List.cons.injEq] at h
  exact List.append_inj h.2 h.1

theorem delimitAll_injective : Function.Injective delimitAll := by
  intro as
  induction as with
  | nil =>
      intro bs h
      cases bs with
      | nil => rfl
      | cons b bs => simp [delimitAll, delimit] at h
  | cons a as ih =>
      intro bs h
      cases bs with
      | nil => simp [delimitAll, delimit] at h
      | cons b bs =>
          simp only [delimitAll, List.flatMap_cons] at h
          obtain ⟨rfl, hrest⟩ := delimit_append_inj h
          rw [ih hrest]

theorem length_le_delimitAll {block : List ℕ} {blocks : List (List ℕ)}
    (h : block ∈ blocks) : block.length < (delimitAll blocks).length := by
  induction blocks with
  | nil => simp at h
  | cons b bs ih =>
      simp only [delimitAll, List.flatMap_cons, List.length_append, delimit,
        List.length_cons]
      rcases List.mem_cons.mp h with rfl | h
      · omega
      · have := ih h
        simp only [delimitAll] at this
        omega

def encodeString (s : String) : List ℕ := s.toList.map Char.toNat

theorem encodeString_injective : Function.Injective encodeString := by
  intro s t h
  have hinj : Function.Injective Char.toNat := fun _ _ => Char.toNat_inj.mp
  exact String.toList_inj.mp (hinj.list_map h)

def encodeOption {α : Type} (f : α → List ℕ) : Option α → List ℕ
  | none => [0]
  | some a => 1 :: f a

theorem encodeOption_injective {α : Type} {f : α → List ℕ}
    (hf : Function.Injective f) : Function.Injective (encodeOption f) := by
  rintro (_ | a) (_ | b) h
  · rfl
  · simp [encodeOption] at h
  · simp [encodeOption] at h
  · simp only [encodeOption, List.cons.injEq, true_and] at h
    rw [hf h]

def encodeInt (i : ℤ) : List ℕ := [(if 0 ≤ i then 0 else 1), i.natAbs]

theorem encodeInt_injective : Function.Injective encodeInt := by
  intro i j h
  simp only [encodeInt, List.cons.injEq, and_true] at h
  obtain ⟨hsign, habs⟩ := h
  split at hsign <;> split at hsign <;> omega

def encodeF64 (x : F64) : List ℕ := [x.bits.toNat]

theorem encodeF64_injective : Function.Injective encodeF64 := by
  rintro ⟨x⟩ ⟨y⟩ h
  simp only [encodeF64, List.cons.injEq, and_true, UInt64.toNat_inj] at h
  rw [h]

/-! ## Objects -/

def encodeAtom : Atom → List ℕ
  | .null => [0]
  | .bool b => [1, b.toNat]
  | .int i => 2 :: encodeInt i.toInt
  | .float x => 3 :: encodeF64 x
  | .string s => 4 :: encodeString s
  | .bytes b => 5 :: b.map UInt8.toNat
  | .uint u => [6, u.toNat]

theorem encodeAtom_injective : Function.Injective encodeAtom := by
  intro a b h
  cases a <;> cases b <;> simp [encodeAtom] at h
  case null.null => rfl
  case bool.bool x y =>
    cases x <;> cases y <;> simp at h ⊢
  case int.int x y =>
    rw [Int64.toInt_inj.mp (encodeInt_injective h)]
  case float.float x y =>
    rw [encodeF64_injective h]
  case string.string x y =>
    rw [encodeString_injective h]
  case bytes.bytes x y =>
    have hinj : Function.Injective UInt8.toNat := fun _ _ => UInt8.toNat_inj.mp
    rw [hinj.list_map h]
  case uint.uint x y =>
    rw [UInt64.toNat_inj.mp h]

/-- An identifier that is the serialized content itself. -/
structure ContentKey where
  code : List ℕ
deriving DecidableEq

namespace ContentKey

theorem code_injective : Function.Injective code := by
  rintro ⟨_⟩ ⟨_⟩ rfl
  rfl

instance : LinearOrder ContentKey :=
  LinearOrder.lift' code code_injective

/-- The blocks an object is serialized as, tagged with its kind. -/
def objectBlocks : Object ContentKey → List (List ℕ)
  | .atom a => [[0], encodeAtom a]
  | .node (.map entries) =>
      [1] :: entries.toList.flatMap fun e => [encodeString e.1, e.2.code]
  | .node (.list items) => [2] :: items.map code
  | .node (.set items) => [3] :: items.map code

theorem entryBlocks_injective :
    Function.Injective fun l : List (String × ContentKey) =>
      l.flatMap fun e => [encodeString e.1, e.2.code] := by
  intro l
  induction l with
  | nil =>
      rintro (_ | ⟨e, m⟩) h
      · rfl
      · simp at h
  | cons e l ih =>
      rintro (_ | ⟨f, m⟩) h
      · simp at h
      · simp only [List.flatMap_cons, List.cons_append, List.nil_append,
          List.cons.injEq] at h
        obtain ⟨hk, hv, hrest⟩ := h
        rw [ih hrest, Prod.ext (encodeString_injective hk) (code_injective hv)]

theorem objectBlocks_injective : Function.Injective objectBlocks := by
  intro o p h
  rcases o with a | (es | xs | xs) <;> rcases p with b | (fs | ys | ys) <;>
    simp [objectBlocks] at h
  · rw [encodeAtom_injective h]
  · have htoList : es.toList = fs.toList := entryBlocks_injective h
    rw [Std.ExtTreeMap.ext_toList (.of_eq htoList)]
  · rw [code_injective.list_map h]
  · rw [code_injective.list_map h]

/-! ## Commits -/

def encodeCategory : IntentCategory → List ℕ
  | .explore => [0]
  | .refine => [1]
  | .fix => [2]
  | .rollback => [3]
  | .checkpoint => [4]
  | .merge => [5]
  | .migrate => [6]
  | .plan => [7]
  | .taint => [8]
  | .untaint => [9]
  | .quarantine => [10]
  | .unquarantine => [11]
  | .watch => [12]
  | .unwatch => [13]
  | .policyPropose => [14]
  | .policyRatify => [15]
  | .policySupersede => [16]
  | .policySign => [17]
  | .custom name => 18 :: encodeString name

theorem encodeCategory_injective : Function.Injective encodeCategory := by
  intro a b h
  cases a <;> cases b <;> simp_all [encodeCategory]
  exact encodeString_injective h

/-- The blocks of a commit's provenance. -/
def optionsBlocks (o : CommitOptions) : List (List ℕ) :=
  [encodeString o.agentId, encodeString o.intent.id,
    encodeCategory o.intent.category, encodeString o.intent.description,
    delimitAll (o.intent.tags.map encodeString),
    encodeOption encodeString o.intent.parentIntent,
    encodeOption encodeString o.reasoning,
    encodeOption encodeF64 o.confidence, encodeString o.provenance]

theorem optionsBlocks_injective : Function.Injective optionsBlocks := by
  rintro ⟨_, ⟨_, _, _, _, _⟩, _, _, _⟩ ⟨_, ⟨_, _, _, _, _⟩, _, _, _⟩ h
  simp only [optionsBlocks, List.cons.injEq, and_true] at h
  obtain ⟨h₁, h₂, h₃, h₄, h₅, h₆, h₇, h₈, h₉⟩ := h
  simp only [CommitOptions.mk.injEq, Intent.mk.injEq]
  exact ⟨encodeString_injective h₁, ⟨encodeString_injective h₂,
    encodeCategory_injective h₃, encodeString_injective h₄,
    encodeString_injective.list_map (delimitAll_injective h₅),
    encodeOption_injective encodeString_injective h₆⟩,
    encodeOption_injective encodeString_injective h₇,
    encodeOption_injective encodeF64_injective h₈, encodeString_injective h₉⟩

def commitBlocks (b : CommitHashInput ContentKey) : List (List ℕ) :=
  b.stateRoot.code :: encodeInt b.timestamp ::
    delimitAll (optionsBlocks b.options) :: b.parents.map code

theorem commitBlocks_injective : Function.Injective commitBlocks := by
  rintro ⟨_, _, _, _⟩ ⟨_, _, _, _⟩ h
  simp only [commitBlocks, List.cons.injEq] at h
  obtain ⟨h₁, h₂, h₃, h₄⟩ := h
  simp only [CommitHashInput.mk.injEq]
  exact ⟨code_injective h₁, code_injective.list_map h₄, encodeInt_injective h₂,
    optionsBlocks_injective (delimitAll_injective h₃)⟩

theorem mem_objectBlocks_of_mem_childIds {o : Object ContentKey}
    {c : ContentKey} (h : c ∈ o.childIds) : c.code ∈ objectBlocks o := by
  rcases o with a | (es | xs | xs)
  · simp [Object.childIds] at h
  · obtain ⟨key, hkey⟩ := Object.exists_getElem?_of_mem_childIds h
    have hmem := Std.ExtTreeMap.mem_toList_iff_getElem?_eq_some.mpr hkey
    exact List.mem_cons_of_mem _
      (List.mem_flatMap.mpr ⟨(key, c), hmem, by simp⟩)
  · exact List.mem_cons_of_mem _ (List.mem_map_of_mem h)
  · exact List.mem_cons_of_mem _ (List.mem_map_of_mem h)

theorem mem_commitBlocks_of_mem_parents {b : CommitHashInput ContentKey}
    {p : ContentKey} (h : p ∈ b.parents) : p.code ∈ commitBlocks b :=
  List.mem_cons_of_mem _ (List.mem_cons_of_mem _
    (List.mem_cons_of_mem _ (List.mem_map_of_mem h)))

instance : Digest ContentKey where
  object o := ⟨delimitAll (objectBlocks o)⟩
  commit b := ⟨delimitAll (commitBlocks b)⟩
  object_injective _ _ h :=
    objectBlocks_injective (delimitAll_injective (ContentKey.mk.inj h))
  commit_injective _ _ h :=
    commitBlocks_injective (delimitAll_injective (ContentKey.mk.inj h))
  rank k := k.code.length
  rank_child _ _ h :=
    length_le_delimitAll (mem_objectBlocks_of_mem_childIds h)
  rank_parent _ _ h :=
    length_le_delimitAll (mem_commitBlocks_of_mem_parents h)
  toHex k := String.join (k.code.map fun n => String.ofList (Nat.toDigits 16 n))
  ofHex _ := none

/-! ## Small inputs -/

/-- The provenance of an agent's write of the given category. -/
def options (category : IntentCategory) : CommitOptions where
  agentId := "agent"
  intent := ⟨"intent", category, "change", [], none⟩
  reasoning := none
  confidence := none
  provenance := ""

/-- The map object with the given entries. -/
def mapOf (entries : List (String × Object ContentKey)) : Object ContentKey :=
  Object.map (entries.foldl (fun m e => m.insert e.1 e.2.id) ∅)

/-- A commit with the given root and parents. -/
def commitOf (root : Object ContentKey) (parents : List (Commit ContentKey))
    (time : ℤ) : Commit ContentKey :=
  CommitBuilder.build root.id (parents.map Commit.id) (options .refine) time

end ContentKey

end AgentStateGraph
