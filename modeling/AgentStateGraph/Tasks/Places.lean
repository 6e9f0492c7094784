import AgentStateGraph.Policy.Types
import AgentStateGraph.Tasks.Turns

/-!
# Where plans and tasks stand

The names of plans and the ids of tasks are spliced into paths.  Where each is
one key of a path, the documents of plans and of tasks stand side by side, and
a write to one leaves what the others read as it is.
-/

namespace AgentStateGraph

variable {Id : Type} [Digest Id]

namespace Tasks

/-! ## Keys -/

/-- A name that a path takes as one key. -/
def IsKey (name : String) : Prop :=
  name ≠ "" ∧ '/' ∉ name.toList ∧
    PathComponent.ofSegment name.toList = .key name

instance (name : String) : Decidable (IsKey name) :=
  inferInstanceAs (Decidable (_ ∧ _ ∧ _))

theorem isKey_META_KEY : IsKey META_KEY := by decide

/-- A minted id is a key. -/
theorem isKey_taskId (n : ℕ) : IsKey (TaskId.new n) := by
  have htext : (TaskId.new n).toList = 't' :: '-' ::
      (List.replicate (3 - (Nat.toDigits 10 n).length) '0' ++
        Nat.toDigits 10 n) := by
    simp only [TaskId.new, String.toList_ofList, List.append_assoc]
    rfl
  refine ⟨?_, ?_, ?_⟩
  · intro hempty
    simp [hempty] at htext
  · rw [htext]
    simp [slash_notMem_digits]
  · rw [htext, Policies.ofSegment_cons_of_not_digit (by decide) (by decide),
      ← htext, String.ofList_toList]

theorem taskId_ne_META_KEY (n : ℕ) : TaskId.new n ≠ META_KEY := by
  intro h
  have hlist := congrArg String.toList h
  simp only [TaskId.new, META_KEY, String.toList_ofList, List.append_assoc] at hlist
  exact absurd (List.cons.inj hlist).1 (by decide)

/-! ## Places -/

/-- The components of the prefix that plans are under. -/
def prefixAt (pre : String) : List PathComponent :=
  if pre = "" then []
  else (StatePath.segments pre).map PathComponent.ofSegment

def planAt (pre plan : String) : List PathComponent :=
  prefixAt pre ++ [.key plan]

/-- Where a plan's metadata, or a task, stands. -/
def documentAt (pre plan key : String) : List PathComponent :=
  planAt pre plan ++ [.key key]

variable {pre plan key : String} {p : StatePath}

theorem map_segments (h : IsKey plan) :
    (StatePath.segments (planRoot pre plan)).map PathComponent.ofSegment =
      planAt pre plan := by
  have hlist : (planRoot pre plan).toList = pre.toList ++ '/' :: plan.toList := by
    simp [planRoot]
  unfold planAt prefixAt
  split
  next hempty =>
    rw [StatePath.segments, hlist, hempty]
    simp [List.splitOn_eq_singleton h.2.1, h.2.2]
  next hne =>
    have hpre : pre.toList ≠ [] := by simpa using hne
    rw [StatePath.segments, hlist,
      List.drop_append_of_le_length (List.length_pos_of_ne_nil hpre),
      List.splitOn_append_cons_self, List.splitOn_eq_singleton h.2.1,
      List.map_append, StatePath.segments]
    simp [h.2.2]

theorem components_planRoot (h : IsKey plan)
    (hp : StatePath.parse (planRoot pre plan) = .ok p) :
    p.components = planAt pre plan := by
  rcases StatePath.parse_eq_ok hp with ⟨hroot, -⟩ | ⟨-, hcomp, -⟩
  · have hlen : 2 ≤ (planRoot pre plan).toList.length := by
      have hplan : plan.toList ≠ [] := by simpa using h.1
      have hpos := List.length_pos_of_ne_nil hplan
      simp only [planRoot, String.toList_append, List.length_append]
      simp
      omega
    rcases hroot with heq | heq <;> simp [heq] at hlen
  · rw [hcomp, map_segments h]

/-- `planMeta` and `taskPath` splice a plan and a key. -/
theorem components_document (hplan : IsKey plan) (hkey : IsKey key)
    (hp : StatePath.parse (taskPath pre plan key) = .ok p) :
    p.components = documentAt pre plan key := by
  have hne : (planRoot pre plan).toList ≠ [] := by simp [planRoot]
  rw [Policies.components_of_parse_append hne hp, map_segments hplan,
    List.splitOn_eq_singleton hkey.2.1, documentAt]
  simp [hkey.2.2]

/-! ## Side by side -/

variable {plan' key' : String}

theorem documentAt_disjoint (h : ¬(plan = plan' ∧ key = key')) :
    PathsDisjoint (documentAt pre plan key) (documentAt pre plan' key') := by
  have hne : documentAt pre plan key ≠ documentAt pre plan' key' := by
    simpa [documentAt, planAt] using h
  have hlen : (documentAt pre plan key).length =
      (documentAt pre plan' key').length := by simp [documentAt, planAt]
  exact ⟨fun hpre => hne (hpre.eq_of_length hlen),
    fun hpre => hne (hpre.eq_of_length hlen.symm).symm⟩

theorem planAt_disjoint (h : plan ≠ plan') :
    PathsDisjoint (planAt pre plan) (documentAt pre plan' key) := by
  constructor
  · intro hpre
    rw [documentAt, planAt, planAt, List.append_assoc,
      List.prefix_append_right_inj] at hpre
    simp [h] at hpre
  · intro hpre
    have hle := hpre.length_le
    simp [documentAt, planAt] at hle

/-- A plan is taken out of a map, so nothing moves up. -/
theorem not_shiftsPath_planAt (q : List PathComponent) :
    ¬ShiftsPath (planAt pre plan) q := by
  rintro ⟨above, c, c', post, hpath, -, i, j, rfl, -, -⟩
  have hlast := (List.append_inj' hpath rfl).2
  simp at hlast

end Tasks

end AgentStateGraph
