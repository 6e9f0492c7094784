import AgentStateGraph.Postgres.Rows

/-!
# What a row keeps of a commit's texts

Where the numbers of a commit come back changed, its texts do not: a record is
read field by field, and a field that holds no float comes back as it is.
-/

namespace AgentStateGraph

namespace PostgresRows

variable {α β : Type} {num : Number → Option Number}

/-- What a value is read back as. -/
def Serde.Reads (s : Serde α) (num : Number → Option Number) (a b : α) : Prop :=
  ((s.toJson a).reread num).bind s.fromJson = some b

def Fields.Reads (fields : Fields α) (num : Number → Option Number)
    (a b : α) : Prop :=
  (Json.rereadEntries num (fields.toEntries a)).bind fields.fromEntries = some b

theorem Serde.Reads.eq_of_kept {s : Serde α} (hnum : FixesIntegers num)
    {a b : α} (h : s.Reads num a b) (hkept : s.Kept num a) : b = a := by
  have hsame := (s.read_iff num hnum a).mpr hkept
  exact (Option.some.inj (hsame.symm.trans h)).symm

theorem Fields.reads_serde {fields : Fields α} {a b : α}
    (h : fields.serde.Reads num a b) : fields.Reads num a b := by
  unfold Serde.Reads at h
  simp only [Fields.serde, Json.reread] at h
  unfold Fields.Reads
  cases hentries : Json.rereadEntries num (fields.toEntries a) with
  | none => simp [hentries] at h
  | some es => simpa [hentries] using h

theorem Serde.reads_iso {s : Serde α} {toFun : β → α} {ofFun : α → β}
    {left : ∀ b, ofFun (toFun b) = b} {right : ∀ a, toFun (ofFun a) = a}
    {a b : β} (h : (Serde.iso s toFun ofFun left right).Reads num a b) :
    s.Reads num (toFun a) (toFun b) := by
  obtain ⟨j, hj, hread⟩ := Option.bind_eq_some_iff.mp h
  obtain ⟨x, hx, rfl⟩ := Option.map_eq_some_iff.mp hread
  rw [right]
  exact Option.bind_eq_some_iff.mpr ⟨j, hj, hx⟩

theorem Fields.reads_cons {name : String} {s : Serde α} {rest : Fields β}
    {hname : name ∉ rest.names} {x y : α × β}
    (h : (Fields.cons name s rest hname).Reads num x y) :
    s.Reads num x.1 y.1 ∧ rest.Reads num x.2 y.2 := by
  obtain ⟨es, hes, hread⟩ := Option.bind_eq_some_iff.mp h
  simp only [Fields.cons, Json.rereadEntries, Option.bind_eq_some_iff,
    Option.map_eq_some_iff] at hes hread
  obtain ⟨j, hj, js, hjs, rfl⟩ := hes
  obtain ⟨a, ha, b, hb, rfl⟩ := hread
  have hfield : Fields.readField name s ((name, j) :: js) = s.fromJson j := by
    simp [Fields.readField]
  rw [hfield] at ha
  rw [rest.skip _ _ hname] at hb
  exact ⟨Option.bind_eq_some_iff.mpr ⟨j, hj, ha⟩,
    Option.bind_eq_some_iff.mpr ⟨js, hjs, hb⟩⟩

/-- The two commits agree on what a history keeps of them. -/
structure Commit.SameTexts (a b : Commit) : Prop where
  id : b.id = a.id
  stateRoot : b.stateRoot = a.stateRoot
  timestamp : b.timestamp = a.timestamp
  agentId : b.agentId = a.agentId
  category : b.intent.category = a.intent.category
  description : b.intent.description = a.intent.description
  tags : b.intent.tags = a.intent.tags

theorem intent_reads (hnum : FixesIntegers num) {a b : Intent}
    (h : intent.Reads num a b) :
    b.category = a.category ∧ b.description = a.description ∧
      b.tags = a.tags := by
  have h := Fields.reads_serde (Serde.reads_iso h)
  obtain ⟨hcategory, h⟩ := Fields.reads_cons h
  obtain ⟨hdescription, h⟩ := Fields.reads_cons h
  obtain ⟨-, h⟩ := Fields.reads_cons h
  obtain ⟨-, h⟩ := Fields.reads_cons h
  obtain ⟨-, h⟩ := Fields.reads_cons h
  obtain ⟨htags, -⟩ := Fields.reads_cons h
  exact ⟨hcategory.eq_of_kept hnum trivial,
    hdescription.eq_of_kept hnum trivial,
    htags.eq_of_kept hnum fun _ _ => trivial⟩

theorem commit_reads {time : TimeText} (hnum : FixesIntegers num) {a b : Commit}
    (h : (commit time).Reads num a b) : a.SameTexts b := by
  have h := Fields.reads_serde (Serde.reads_iso h)
  obtain ⟨hagent, h⟩ := Fields.reads_cons h
  obtain ⟨-, h⟩ := Fields.reads_cons h
  obtain ⟨-, h⟩ := Fields.reads_cons h
  obtain ⟨hid, h⟩ := Fields.reads_cons h
  obtain ⟨hintent, h⟩ := Fields.reads_cons h
  obtain ⟨-, h⟩ := Fields.reads_cons h
  obtain ⟨-, h⟩ := Fields.reads_cons h
  obtain ⟨hroot, h⟩ := Fields.reads_cons h
  obtain ⟨htime, -⟩ := Fields.reads_cons h
  obtain ⟨hcategory, hdescription, htags⟩ := intent_reads hnum hintent
  exact ⟨hid.eq_of_kept hnum trivial, hroot.eq_of_kept hnum trivial,
    htime.eq_of_kept hnum trivial, hagent.eq_of_kept hnum trivial, hcategory,
    hdescription, htags⟩

theorem sameTexts_of_fromRowJson {text : NumberText} {time : TimeText}
    {c c' : Commit}
    (h : fromRowJson text (commit time) (rowJson (commit time) c) = some c') :
    c.SameTexts c' := by
  have hread : ∀ num, FixesIntegers num →
      (((commit time).toJson c).readText num).bind (commit time).fromJson =
        some c' → c.SameTexts c' := by
    intro num hnum h
    unfold Json.readText at h
    split at h
    next => exact commit_reads hnum h
    next => contradiction
  unfold fromRowJson rowJson at h
  by_cases hnul : hasNul ((commit time).toJson c) = true
  · simp only [hnul, if_true] at h
    exact hread _ (fixesIntegers_exact text) h
  · simp only [hnul, if_false, Bool.false_eq_true] at h
    exact hread _ (fixesIntegers_jsonb text) h

end PostgresRows

end AgentStateGraph
