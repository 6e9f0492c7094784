import AgentStateGraph.Lib.Delimited
import AgentStateGraph.Lib.SortedBatch
import AgentStateGraph.Policy.Canonical

/-!
# What canonical bytes tell of a value

Two values have the same canonical bytes exactly when they are the same but for
the order of the keys of their objects, when `serde_json` prints scalars
injectively and so that each ends where a mark follows.
-/

namespace AgentStateGraph

open Backend Bundles Delimited SortedBatch

/-! ## Values in any order -/

namespace Json

mutual

/-- A `serde_json::Value`: each key of an object once, in any order. -/
def isValue : Json → Bool
  | .null | .bool _ | .string _ => true
  | .number n => n.isCanonical
  | .array items => areValues items
  | .object entries =>
      decide (entries.map Prod.fst).Nodup && entriesAreValues entries

def areValues : List Json → Bool
  | [] => true
  | item :: items => item.isValue && areValues items

def entriesAreValues : List (String × Json) → Bool
  | [] => true
  | (_, value) :: entries => value.isValue && entriesAreValues entries

end

theorem areValues_iff {items : List Json} :
    areValues items = true ↔ ∀ item ∈ items, item.isValue = true := by
  induction items with
  | nil => simp [areValues]
  | cons item items ih => simp [areValues, ih]

theorem entriesAreValues_iff {entries : List (String × Json)} :
    entriesAreValues entries = true ↔ ∀ e ∈ entries, e.2.isValue = true := by
  induction entries with
  | nil => simp [entriesAreValues]
  | cons e entries ih => simp [entriesAreValues, ih]

theorem isValue_object {entries : List (String × Json)} :
    (object entries).isValue = true ↔
      (entries.map Prod.fst).Nodup ∧ ∀ e ∈ entries, e.2.isValue = true := by
  simp [isValue, entriesAreValues_iff]

mutual

/-- Equal, irrespective of the order of keys. -/
def Same : Json → Json → Prop
  | .null, b => b = .null
  | .bool x, b => b = .bool x
  | .number n, b => b = .number n
  | .string s, b => b = .string s
  | .array items, b => ∃ items', b = .array items' ∧ SameItems items items'
  | .object entries, b =>
      ∃ entries', b = .object entries' ∧ entries.length = entries'.length ∧
        SameEntries entries entries'

def SameItems : List Json → List Json → Prop
  | [], items' => items' = []
  | item :: items, items' =>
      ∃ item' rest, items' = item' :: rest ∧ Same item item' ∧
        SameItems items rest

def SameEntries : List (String × Json) → List (String × Json) → Prop
  | [], _ => True
  | (key, value) :: entries, entries' =>
      (∃ value', (key, value') ∈ entries' ∧ Same value value') ∧
        SameEntries entries entries'

end

theorem sameItems_iff {items items' : List Json} :
    SameItems items items' ↔ List.Forall₂ Same items items' := by
  induction items generalizing items' with
  | nil => simp [SameItems]
  | cons item items ih =>
      rw [SameItems, List.forall₂_cons_left_iff]
      constructor
      · rintro ⟨item', rest, rfl, hitem, hitems⟩
        exact ⟨item', rest, hitem, ih.mp hitems, rfl⟩
      · rintro ⟨item', rest, hitem, hitems, rfl⟩
        exact ⟨item', rest, rfl, hitem, ih.mpr hitems⟩

theorem sameEntries_iff {entries entries' : List (String × Json)} :
    SameEntries entries entries' ↔
      ∀ e ∈ entries, ∃ value', (e.1, value') ∈ entries' ∧ Same e.2 value' := by
  induction entries with
  | nil => simp [SameEntries]
  | cons e entries ih => simp [SameEntries, ih]

def isScalar : Json → Bool
  | .array _ | .object _ => false
  | _ => true

theorem same_iff_of_isScalar {a b : Json} (ha : a.isScalar = true) :
    a.Same b ↔ a = b := by
  cases a with
  | array items => simp [isScalar] at ha
  | object entries => simp [isScalar] at ha
  | _ => simp only [Same, eq_comm]

end Json

namespace Policies

/-! ## The printing of scalars -/

/-- The marks that may follow a value. -/
def marks : List UInt8 :=
  [','.toUInt8, ':'.toUInt8, ']'.toUInt8, '\x7d'.toUInt8]

/-- The marks that open an array or an object. -/
def openings : List UInt8 := ['['.toUInt8, '\x7b'.toUInt8]

/-- A scalar as `serde_json` builds it. -/
def IsPrinted (value : Json) : Prop :=
  value.isScalar = true ∧ value.isValue = true

/-- Scalars are printed injectively and self-delimiting, and no scalar begins
with a mark. -/
structure ScalarText.Legible (scalar : ScalarText) : Prop where
  recovers : ∀ a, IsPrinted a → Recovers marks scalar IsPrinted (· = ·) a
  opens : ∀ a, IsPrinted a →
    ∃ c text, scalar a = c :: text ∧ c ∉ marks ∧ c ∉ openings

/-- `canonicalize_value`. -/
def canonicalizeValue (scalar : ScalarText) (value : Json) : Bytes :=
  writeCanonical scalar (stripSignature value)

variable {scalar : ScalarText}

/-! ## Arrays and objects as joined texts -/

theorem commaSeparated_eq_joined (items : List Bytes) :
    commaSeparated items = joined ','.toUInt8 items := by
  induction items with
  | nil => rfl
  | cons item items ih =>
      cases items with
      | nil => rfl
      | cons next items =>
          change item ++ ','.toUInt8 :: commaSeparated (next :: items) =
            item ++ ','.toUInt8 :: joined ','.toUInt8 (next :: items)
          rw [ih]

theorem writeItems_eq_map (items : List Json) :
    writeItems scalar items = items.map (writeCanonical scalar) := by
  induction items with
  | nil => rfl
  | cons item items ih => rw [writeItems, ih, List.map_cons]

theorem writeEntries_eq_map (entries : List (String × Json)) :
    writeEntries scalar entries =
      entries.map fun e => (e.1, writeCanonical scalar e.2) := by
  induction entries with
  | nil => rfl
  | cons e entries ih => rw [writeEntries, ih, List.map_cons]

/-- A key, and the text of its value. -/
def keyed (scalar : ScalarText) (e : String × Bytes) : Bytes :=
  scalar (.string e.1) ++ ':'.toUInt8 :: e.2

def writeEntry (scalar : ScalarText) (e : String × Json) : Bytes :=
  keyed scalar (e.1, writeCanonical scalar e.2)

theorem writeCanonical_array (items : List Json) :
    writeCanonical scalar (.array items) =
      '['.toUInt8 ::
        (joined ','.toUInt8 (items.map (writeCanonical scalar)) ++
          [']'.toUInt8]) := by
  rw [writeCanonical, commaSeparated_eq_joined, writeItems_eq_map]
  rfl

theorem writeCanonical_array_append (items : List Json) (rest : Bytes) :
    writeCanonical scalar (.array items) ++ rest =
      '['.toUInt8 ::
        (joined ','.toUInt8 (items.map (writeCanonical scalar)) ++
          ']'.toUInt8 :: rest) := by
  rw [writeCanonical_array, List.cons_append, List.append_assoc,
    List.singleton_append]

/-- The text of an object, from its keys and the texts of its values. -/
def writeObject (scalar : ScalarText) (entries : List (String × Bytes)) :
    Bytes :=
  '\x7b'.toUInt8 ::
    (joined ','.toUInt8 ((sort Prod.fst entries).map (keyed scalar)) ++
      ['\x7d'.toUInt8])

theorem writeCanonical_object (entries : List (String × Json)) :
    writeCanonical scalar (.object entries) =
      writeObject scalar
        (entries.map fun e => (e.1, writeCanonical scalar e.2)) := by
  rw [writeCanonical, commaSeparated_eq_joined, writeEntries_eq_map]
  rfl

theorem writeCanonical_object_append (entries : List (String × Json))
    (rest : Bytes) :
    writeCanonical scalar (.object entries) ++ rest =
      '\x7b'.toUInt8 ::
        (joined ','.toUInt8
          ((sort Prod.fst entries).map (writeEntry scalar)) ++
            '\x7d'.toUInt8 :: rest) := by
  have hsort : sort Prod.fst
      (entries.map fun e => (e.1, writeCanonical scalar e.2)) =
      (sort Prod.fst entries).map fun e => (e.1, writeCanonical scalar e.2) :=
    (map_sort fun _ => rfl).symm
  rw [writeCanonical_object, writeObject, hsort, List.map_map,
    List.cons_append, List.append_assoc, List.singleton_append]
  rfl

theorem writeCanonical_of_isScalar {a : Json} (ha : a.isScalar = true) :
    writeCanonical scalar a = scalar a := by
  cases a with
  | array items => simp [Json.isScalar] at ha
  | object entries => simp [Json.isScalar] at ha
  | _ => rw [writeCanonical]

/-! ## The same value has the same bytes -/

theorem writeCanonical_eq_of_entries {entries entries' : List (String × Json)}
    (hlength : entries.length = entries'.length)
    (hkeys : (entries.map Prod.fst).Nodup)
    (hsame : ∀ e ∈ entries, ∃ value', (e.1, value') ∈ entries' ∧
      writeCanonical scalar e.2 = writeCanonical scalar value') :
    writeCanonical scalar (.object entries) =
      writeCanonical scalar (.object entries') := by
  rw [writeCanonical_object, writeCanonical_object]
  set texts := entries.map fun e => (e.1, writeCanonical scalar e.2) with htexts
  set texts' := entries'.map fun e => (e.1, writeCanonical scalar e.2)
    with htexts'
  have hnodup : (texts.map Prod.fst).Nodup := by
    rw [htexts, List.map_map]
    exact hkeys
  have hsubset : texts ⊆ texts' := by
    intro t ht
    obtain ⟨e, he, rfl⟩ := List.mem_map.mp ht
    obtain ⟨value', hmem, htext⟩ := hsame e he
    exact List.mem_map.mpr ⟨_, hmem, by rw [htext]⟩
  have hperm : texts.Perm texts' :=
    (List.subperm_of_subset (hnodup.of_map _) hsubset).perm_of_length_le
      (by simp [htexts, htexts', hlength])
  rw [writeObject, writeObject, sort_eq_of_perm hnodup hperm]

mutual

theorem writeCanonical_eq_of_same : ∀ {a b : Json}, a.isValue = true →
    a.Same b → writeCanonical scalar a = writeCanonical scalar b
  | .null, _, _, h | .bool _, _, _, h | .number _, _, _, h
  | .string _, _, _, h => by
      rw [Json.Same] at h
      rw [h]
  | .array items, _, ha, h => by
      rw [Json.Same] at h
      obtain ⟨items', rfl, hitems⟩ := h
      rw [writeCanonical_array, writeCanonical_array,
        map_writeCanonical_eq_of_same ha hitems]
  | .object entries, _, ha, h => by
      rw [Json.Same] at h
      obtain ⟨entries', rfl, hlength, hentries⟩ := h
      exact writeCanonical_eq_of_entries hlength (Json.isValue_object.mp ha).1
        (texts_eq_of_same (Json.isValue_object.mp ha).2 hentries)

theorem map_writeCanonical_eq_of_same : ∀ {items items' : List Json},
    Json.areValues items = true → Json.SameItems items items' →
    items.map (writeCanonical scalar) = items'.map (writeCanonical scalar)
  | [], _, _, h => by
      rw [Json.SameItems] at h
      rw [h]
  | item :: items, _, hvalues, h => by
      rw [Json.SameItems] at h
      obtain ⟨item', rest, rfl, hitem, hrest⟩ := h
      rw [Json.areValues, Bool.and_eq_true] at hvalues
      rw [List.map_cons, List.map_cons,
        writeCanonical_eq_of_same hvalues.1 hitem,
        map_writeCanonical_eq_of_same hvalues.2 hrest]

theorem texts_eq_of_same : ∀ {entries entries' : List (String × Json)},
    (∀ e ∈ entries, e.2.isValue = true) → Json.SameEntries entries entries' →
    ∀ e ∈ entries, ∃ value', (e.1, value') ∈ entries' ∧
      writeCanonical scalar e.2 = writeCanonical scalar value'
  | [], _, _, _ => fun e he => by simp at he
  | (key, value) :: entries, _, hvalues, h => by
      rw [Json.SameEntries] at h
      obtain ⟨⟨value', hmem, hvalue⟩, hentries⟩ := h
      rw [List.forall_mem_cons] at hvalues ⊢
      exact ⟨⟨value', hmem, writeCanonical_eq_of_same hvalues.1 hvalue⟩,
        texts_eq_of_same hvalues.2 hentries⟩

end

/-! ## Equal bytes are of the same value -/

theorem writeCanonical_opens (hscalar : scalar.Legible) {a : Json}
    (ha : a.isValue = true) :
    (a.isScalar = true ∧ ∃ c text, writeCanonical scalar a = c :: text ∧
        c ∉ marks ∧ c ∉ openings) ∨
      (∃ items text, a = .array items ∧
        writeCanonical scalar a = '['.toUInt8 :: text) ∨
      ∃ entries text, a = .object entries ∧
        writeCanonical scalar a = '\x7b'.toUInt8 :: text := by
  cases hs : a.isScalar with
  | true =>
      rw [writeCanonical_of_isScalar hs]
      exact Or.inl ⟨rfl, hscalar.opens a ⟨hs, ha⟩⟩
  | false =>
      cases a with
      | array items =>
          exact Or.inr (Or.inl ⟨items, _, rfl, writeCanonical_array items⟩)
      | object entries =>
          exact Or.inr (Or.inr ⟨entries, _, rfl,
            writeCanonical_object entries⟩)
      | _ => simp [Json.isScalar] at hs

theorem writeCanonical_append_ne (hscalar : scalar.Legible) {a : Json}
    (ha : a.isValue = true) {c : UInt8} (hc : c ∈ marks)
    (rest rest' : Bytes) : writeCanonical scalar a ++ rest ≠ c :: rest' := by
  intro heq
  rcases writeCanonical_opens hscalar ha with
    ⟨-, d, text, hd, hmark, -⟩ | ⟨-, text, -, hd⟩ | ⟨-, text, -, hd⟩
  · rw [hd, List.cons_append, List.cons.injEq] at heq
    exact hmark (heq.1 ▸ hc)
  · rw [hd, List.cons_append, List.cons.injEq] at heq
    rw [← heq.1] at hc
    exact absurd hc (by decide)
  · rw [hd, List.cons_append, List.cons.injEq] at heq
    rw [← heq.1] at hc
    exact absurd hc (by decide)

/-- The value that a text begins with is known up to the order of its keys. -/
abbrev ReadsBack (scalar : ScalarText) (a : Json) : Prop :=
  Recovers marks (writeCanonical scalar) (·.isValue = true) Json.Same a

theorem readsBack_scalar (hscalar : scalar.Legible) {a : Json}
    (hs : a.isScalar = true) (ha : a.isValue = true) : ReadsBack scalar a := by
  intro b hb rest rest' hrest hrest' heq
  obtain ⟨c, text, hc, -, hopen⟩ := hscalar.opens a ⟨hs, ha⟩
  rw [writeCanonical_of_isScalar hs] at heq
  rcases writeCanonical_opens hscalar hb with
    ⟨hsb, -⟩ | ⟨items, text', rfl, hd⟩ | ⟨entries, text', rfl, hd⟩
  · rw [writeCanonical_of_isScalar hsb] at heq
    obtain ⟨hab, hrests⟩ :=
      hscalar.recovers a ⟨hs, ha⟩ b ⟨hsb, hb⟩ _ _ hrest hrest' heq
    exact ⟨(Json.same_iff_of_isScalar hs).mpr hab, hrests⟩
  · rw [hc, hd, List.cons_append, List.cons_append, List.cons.injEq] at heq
    exact absurd (by simp [heq.1, openings]) hopen
  · rw [hc, hd, List.cons_append, List.cons_append, List.cons.injEq] at heq
    exact absurd (by simp [heq.1, openings]) hopen

theorem readsBack_array (hscalar : scalar.Legible) {items : List Json}
    (hvalues : ∀ item ∈ items, item.isValue = true)
    (hitems : ∀ item ∈ items, ReadsBack scalar item) :
    ReadsBack scalar (.array items) := by
  intro b hb rest rest' hrest hrest' heq
  rw [writeCanonical_array_append] at heq
  rcases writeCanonical_opens hscalar hb with
    ⟨-, c, text, hc, -, hopen⟩ | ⟨items', text, rfl, -⟩ | ⟨entries, text, rfl, hd⟩
  · rw [hc, List.cons_append, List.cons.injEq] at heq
    exact absurd (by simp [← heq.1, openings]) hopen
  · rw [writeCanonical_array_append, List.cons.injEq] at heq
    have hvalues' : ∀ item ∈ items', item.isValue = true :=
      Json.areValues_iff.mp hb
    have hclose : ']'.toUInt8 ∈ marks := by simp [marks]
    obtain ⟨hall, hrests⟩ := joined_recovered (by simp [marks]) hclose
      (by decide) hitems hvalues'
      (fun x hx r r' => writeCanonical_append_ne hscalar (hvalues x hx) hclose r r')
      (fun y hy r r' => writeCanonical_append_ne hscalar (hvalues' y hy) hclose r r')
      heq.2
    exact ⟨⟨items', rfl, Json.sameItems_iff.mpr hall⟩, hrests⟩
  · rw [hd, List.cons_append, List.cons.injEq] at heq
    exact absurd heq.1 (by decide)

/-- Two entries have the same key, and the same value. -/
def SameEntry (e e' : String × Json) : Prop := e.1 = e'.1 ∧ e.2.Same e'.2

theorem recovers_writeEntry (hscalar : scalar.Legible) {e : String × Json}
    (he : ReadsBack scalar e.2) :
    Recovers marks (writeEntry scalar) (·.2.isValue = true) SameEntry e := by
  intro e' he' rest rest' hrest hrest' heq
  rw [writeEntry, writeEntry, keyed, keyed, List.append_assoc,
    List.append_assoc, List.cons_append, List.cons_append] at heq
  have hcolon : ∀ text : Bytes, Stops marks (':'.toUInt8 :: text) := by
    intro text
    simp [Stops, marks]
  obtain ⟨hkey, hvalue⟩ := hscalar.recovers (.string e.1) ⟨rfl, rfl⟩
    (.string e'.1) ⟨rfl, rfl⟩ _ _ (hcolon _) (hcolon _) heq
  rw [List.cons.injEq] at hvalue
  obtain ⟨hsame, hrests⟩ := he e'.2 he' _ _ hrest hrest' hvalue.2
  exact ⟨⟨Json.string.inj hkey, hsame⟩, hrests⟩

theorem writeEntry_append_ne (hscalar : scalar.Legible) {c : UInt8}
    (hc : c ∈ marks) (e : String × Json) (rest rest' : Bytes) :
    writeEntry scalar e ++ rest ≠ c :: rest' := by
  intro heq
  obtain ⟨d, text, hd, hmark, -⟩ := hscalar.opens (.string e.1) ⟨rfl, rfl⟩
  rw [writeEntry, keyed, hd, List.cons_append, List.cons_append,
    List.cons.injEq] at heq
  exact hmark (heq.1 ▸ hc)

theorem readsBack_object (hscalar : scalar.Legible)
    {entries : List (String × Json)}
    (hentries : ∀ e ∈ entries, ReadsBack scalar e.2) :
    ReadsBack scalar (.object entries) := by
  intro b hb rest rest' hrest hrest' heq
  rw [writeCanonical_object_append] at heq
  rcases writeCanonical_opens hscalar hb with
    ⟨-, c, text, hc, -, hopen⟩ | ⟨items, text, rfl, hd⟩ | ⟨entries', text, rfl, -⟩
  · rw [hc, List.cons_append, List.cons.injEq] at heq
    exact absurd (by simp [← heq.1, openings]) hopen
  · rw [hd, List.cons_append, List.cons.injEq] at heq
    exact absurd heq.1 (by decide)
  · rw [writeCanonical_object_append, List.cons.injEq] at heq
    have hvalues' := (Json.isValue_object.mp hb).2
    have hclose : '\x7d'.toUInt8 ∈ marks := by simp [marks]
    obtain ⟨hall, hrests⟩ := joined_recovered (by simp [marks]) hclose
      (by decide)
      (fun e he => recovers_writeEntry hscalar (hentries e (mem_sort.mp he)))
      (fun e he => hvalues' e (mem_sort.mp he))
      (fun e _ r r' => writeEntry_append_ne hscalar hclose e r r')
      (fun e _ r r' => writeEntry_append_ne hscalar hclose e r r') heq.2
    refine ⟨⟨entries', rfl, ?_, Json.sameEntries_iff.mpr ?_⟩, hrests⟩
    · simpa [SortedBatch.sort, List.length_insertionSort] using hall.length_eq
    · intro e he
      obtain ⟨e', he', hkey, hvalue⟩ :=
        exists_of_forall₂ hall (mem_sort.mpr he)
      exact ⟨e'.2, by rw [hkey]; exact mem_sort.mp he', hvalue⟩

mutual

theorem readsBack (hscalar : scalar.Legible) :
    ∀ {a : Json}, a.isValue = true → ReadsBack scalar a
  | .null, ha | .bool _, ha | .number _, ha | .string _, ha =>
      readsBack_scalar hscalar rfl ha
  | .array _, ha =>
      readsBack_array hscalar (Json.areValues_iff.mp ha)
        (readsBackItems hscalar (Json.areValues_iff.mp ha))
  | .object _, ha =>
      readsBack_object hscalar
        (readsBackEntries hscalar (Json.isValue_object.mp ha).2)

theorem readsBackItems (hscalar : scalar.Legible) :
    ∀ {items : List Json}, (∀ item ∈ items, item.isValue = true) →
      ∀ item ∈ items, ReadsBack scalar item
  | [], _ => fun item hitem => by simp at hitem
  | item :: items, h => by
      rw [List.forall_mem_cons] at h ⊢
      exact ⟨readsBack hscalar h.1, readsBackItems hscalar h.2⟩

theorem readsBackEntries (hscalar : scalar.Legible) :
    ∀ {entries : List (String × Json)}, (∀ e ∈ entries, e.2.isValue = true) →
      ∀ e ∈ entries, ReadsBack scalar e.2
  | [], _ => fun e he => by simp at he
  | e :: entries, h => by
      rw [List.forall_mem_cons] at h ⊢
      exact ⟨readsBack hscalar h.1, readsBackEntries hscalar h.2⟩

end

/-- Equal bytes, exactly when equal irrespective of key order. -/
theorem writeCanonical_eq_iff (hscalar : scalar.Legible) {a b : Json}
    (ha : a.isValue = true) (hb : b.isValue = true) :
    writeCanonical scalar a = writeCanonical scalar b ↔ a.Same b := by
  constructor
  · intro heq
    exact (readsBack hscalar ha b hb [] [] trivial trivial (by rw [heq])).1
  · exact writeCanonical_eq_of_same ha

theorem isValue_stripSignature {a : Json} (ha : a.isValue = true) :
    (stripSignature a).isValue = true := by
  cases a with
  | object entries =>
      obtain ⟨hkeys, hvalues⟩ := Json.isValue_object.mp ha
      refine Json.isValue_object.mpr ⟨?_, ?_⟩
      · exact hkeys.sublist (List.filter_sublist.map _)
      · exact fun e he => hvalues e (List.mem_of_mem_filter he)
  | _ => exact ha

theorem canonicalizeValue_eq_iff (hscalar : scalar.Legible) {a b : Json}
    (ha : a.isValue = true) (hb : b.isValue = true) :
    canonicalizeValue scalar a = canonicalizeValue scalar b ↔
      (stripSignature a).Same (stripSignature b) :=
  writeCanonical_eq_iff hscalar (isValue_stripSignature ha)
    (isValue_stripSignature hb)

end Policies

/-! ## Values with sorted keys -/

namespace Json

theorem entriesCanonical_iff {entries : List (String × Json)} :
    entriesCanonical entries = true ↔
      ∀ e ∈ entries, e.2.isCanonical = true := by
  induction entries with
  | nil => simp [entriesCanonical]
  | cons e entries ih => simp [entriesCanonical, ih]

theorem areCanonical_iff {items : List Json} :
    areCanonical items = true ↔ ∀ item ∈ items, item.isCanonical = true := by
  induction items with
  | nil => simp [areCanonical]
  | cons item items ih => simp [areCanonical, ih]

theorem isCanonical_object {entries : List (String × Json)} :
    (object entries).isCanonical = true ↔
      (entries.map Prod.fst).Pairwise (· < ·) ∧
        ∀ e ∈ entries, e.2.isCanonical = true := by
  simp [isCanonical, entriesCanonical_iff]

mutual

theorem isValue_of_isCanonical :
    ∀ {a : Json}, a.isCanonical = true → a.isValue = true
  | .null, _ | .bool _, _ | .string _, _ => rfl
  | .number _, h => h
  | .array _, h =>
      areValues_iff.mpr (areValues_of_canonical (areCanonical_iff.mp h))
  | .object _, h => by
      obtain ⟨hkeys, hvalues⟩ := isCanonical_object.mp h
      exact isValue_object.mpr ⟨hkeys.imp (fun hlt => ne_of_lt hlt),
        entriesAreValues_of_canonical hvalues⟩

theorem areValues_of_canonical : ∀ {items : List Json},
    (∀ item ∈ items, item.isCanonical = true) →
    ∀ item ∈ items, item.isValue = true
  | [], _ => fun item hitem => by simp at hitem
  | item :: items, h => by
      rw [List.forall_mem_cons] at h ⊢
      exact ⟨isValue_of_isCanonical h.1, areValues_of_canonical h.2⟩

theorem entriesAreValues_of_canonical : ∀ {entries : List (String × Json)},
    (∀ e ∈ entries, e.2.isCanonical = true) →
    ∀ e ∈ entries, e.2.isValue = true
  | [], _ => fun e he => by simp at he
  | e :: entries, h => by
      rw [List.forall_mem_cons] at h ⊢
      exact ⟨isValue_of_isCanonical h.1, entriesAreValues_of_canonical h.2⟩

end

/-- Sorted entries that are each among others, as many and sorted, are
these. -/
theorem entries_eq_of_subset {entries entries' : List (String × Json)}
    (hkeys : (entries.map Prod.fst).Pairwise (· < ·))
    (hkeys' : (entries'.map Prod.fst).Pairwise (· < ·))
    (hlength : entries.length = entries'.length) (h : entries ⊆ entries') :
    entries = entries' := by
  have hnodup : (entries.map Prod.fst).Nodup := hkeys.imp fun hlt => ne_of_lt hlt
  have hperm : entries.Perm entries' :=
    (List.subperm_of_subset (hnodup.of_map _) h).perm_of_length_le
      (le_of_eq hlength.symm)
  rw [List.pairwise_map] at hkeys hkeys'
  refine hperm.eq_of_pairwise ?_ hkeys hkeys'
  intro e e' _ _ hlt hlt'
  exact absurd (lt_trans hlt hlt') (lt_irrefl _)

mutual

/-- Where the keys are sorted the order is no freedom. -/
theorem eq_of_same : ∀ {a b : Json}, a.isCanonical = true →
    b.isCanonical = true → a.Same b → a = b
  | .null, _, _, _, h | .bool _, _, _, _, h | .number _, _, _, _, h
  | .string _, _, _, _, h => by
      rw [Same] at h
      exact h.symm
  | .array items, _, ha, hb, h => by
      rw [Same] at h
      obtain ⟨items', rfl, hitems⟩ := h
      rw [items_eq_of_same (areCanonical_iff.mp ha) (areCanonical_iff.mp hb)
        hitems]
  | .object entries, _, ha, hb, h => by
      rw [Same] at h
      obtain ⟨entries', rfl, hlength, hentries⟩ := h
      obtain ⟨hkeys, hvalues⟩ := isCanonical_object.mp ha
      obtain ⟨hkeys', hvalues'⟩ := isCanonical_object.mp hb
      rw [entries_eq_of_subset hkeys hkeys' hlength
        (entries_subset_of_same hvalues hvalues' hentries)]

theorem items_eq_of_same : ∀ {items items' : List Json},
    (∀ item ∈ items, item.isCanonical = true) →
    (∀ item ∈ items', item.isCanonical = true) →
    SameItems items items' → items = items'
  | [], _, _, _, h => by
      rw [SameItems] at h
      exact h.symm
  | item :: items, _, hitems, hitems', h => by
      rw [SameItems] at h
      obtain ⟨item', rest, rfl, hsame, hrest⟩ := h
      rw [List.forall_mem_cons] at hitems hitems'
      rw [eq_of_same hitems.1 hitems'.1 hsame,
        items_eq_of_same hitems.2 hitems'.2 hrest]

theorem entries_subset_of_same : ∀ {entries entries' : List (String × Json)},
    (∀ e ∈ entries, e.2.isCanonical = true) →
    (∀ e ∈ entries', e.2.isCanonical = true) →
    SameEntries entries entries' → entries ⊆ entries'
  | [], _, _, _, _ => List.nil_subset _
  | (key, value) :: entries, _, hentries, hentries', h => by
      rw [SameEntries] at h
      obtain ⟨⟨value', hmem, hvalue⟩, hrest⟩ := h
      rw [List.forall_mem_cons] at hentries
      have heq : value = value' :=
        eq_of_same hentries.1 (hentries' _ hmem) hvalue
      rw [List.cons_subset]
      exact ⟨heq ▸ hmem,
        entries_subset_of_same hentries.2 hentries' hrest⟩

end

end Json

end AgentStateGraph
