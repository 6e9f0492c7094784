import AgentStateGraph.Policy.Serializer
import AgentStateGraph.Postgres.Rows

/-!
# Signed bytes cover the policy

Two policies have the same canonical bytes exactly when they agree on every
field but the signature, and a policy that was stored and read back keeps its
bytes.
-/

namespace AgentStateGraph

open Backend Bundles Delimited

namespace Repository

variable {Id : Type} [Digest Id] (repo : Repository)

/-! ## A document that was written reads back -/

theorem setJson_holdsAt {store store' : Storage Id} {refName path : String}
    {value : Json} {options : CommitOptions} {fired : List Escalation}
    {now : ℕ → ℤ} {id : Id}
    (h : repo.setJson store refName path value options fired now =
      (.ok id, store')) :
    repo.activeNamespace ∈ store'.namespaces ∧
      ∃ head root p, store'.refAt repo.activeNamespace refName = some head ∧
        store'.rootOf head = some root ∧ StatePath.parse path = .ok p ∧
        HoldsAt store'.objects root p.components value := by
  unfold setJson at h
  simp only at h
  split at h
  next => simp at h
  next o ho =>
    have hvalue := eq_of_getObject_jsonToTree ho
    subst hvalue
    split at h
    next => simp at h
    next id₁ store₁ hset =>
      have hkeeps := repo.escalateAfter_keepsState refName options fired now
        id₁ store₁
      rw [h] at hkeeps
      unfold set at hset
      split at hset
      next => simp at hset
      next =>
        split at hset
        next => simp at hset
        next p hparse =>
          obtain ⟨head, isBranch, root, newRoot, built, hhead, -, hbuild, -,
            hlands⟩ := repo.writeLoop_eq_ok (setRoot_onlyAdds p _) hset
          have hadds := setRoot_onlyAdds p (jsonToObjects value).1
            (store.withObjects (jsonToTree store.objects value).2) root
          rw [hbuild] at hadds
          have hns : repo.activeNamespace ∈ store'.namespaces := by
            have hbefore := repo.headForWrite_namespace hhead
            rw [hkeeps.expands.namespaces, hlands.namespaces,
              hadds.namespaces]
            exact hbefore
          have href : store₁.refAt repo.activeNamespace refName =
              some (CommitBuilder.build newRoot [head] options (now 0)).id := by
            rw [hlands.refAt, if_pos ⟨rfl, rfl⟩]
          have hroot := Storage.rootOf_of_getCommit hlands.getCommit
          have htree := setRoot_eq_ok hbuild
          simp only [Storage.withObjects] at htree
          obtain ⟨new, hnew, hnewRoot, -⟩ := hkeeps.head _ _ href hroot
          refine ⟨hns, new, newRoot, p, hnew, hnewRoot,
            parsePath_eq_ok hparse, holdsAt_treeSet htree ?_⟩
          rw [← hlands.objects]
          exact hkeeps.expands.objects

/-- What `set_json` wrote is what `get_json` gives. -/
theorem getJson_setJson {store store' : Storage Id} {refName path : String}
    {value : Json} {options : CommitOptions} {fired : List Escalation}
    {now : ℕ → ℤ} {id : Id} (hc : value.isCanonical = true)
    (hpath : pathIsSecret path = false)
    (h : repo.setJson store refName path value options fired now =
      (.ok id, store')) :
    repo.getJson store' refName path = .ok value := by
  obtain ⟨hns, head, root, p, hhead, hroot, hp, hholds⟩ :=
    repo.setJson_holdsAt h
  exact repo.getJson_of_holdsAt hns hhead hroot hp hpath hc hholds

end Repository

namespace Policies

/-! ## The codec -/

theorem duration_storedTimeout (t : ℕ) :
    Form.duration.toJson (storedTimeout t) = Form.duration.toJson t := by
  have hmillis : storedTimeout t / 10 ^ 6 = t / 10 ^ 6 % 2 ^ 64 := by
    rw [storedTimeout, Nat.mul_div_cancel _ (by norm_num)]
  have hword : UInt64.ofNat (t / 10 ^ 6 % 2 ^ 64) = UInt64.ofNat (t / 10 ^ 6) := by
    apply UInt64.toNat_inj.mp
    simp
  simp only [Form.duration, hmillis, hword]

theorem approvalRule_stored (r : ApprovalRule) :
    Form.approvalRule.toJson r.stored = Form.approvalRule.toJson r := by
  have htimeout : (r.timeout.map storedTimeout).map Form.duration.toJson =
      r.timeout.map Form.duration.toJson := by
    cases r.timeout <;> simp [duration_storedTimeout]
  simp only [Form.approvalRule, Form.approvalRuleSlots, ApprovalRule.stored,
    htimeout]

variable (time : PostgresRows.TimeText)

theorem policy_stored (p : Policy) :
    (Form.policy time).toJson p.stored = (Form.policy time).toJson p := by
  have hrules : (p.requireApproval.map ApprovalRule.stored).map
      Form.approvalRule.toJson =
      p.requireApproval.map Form.approvalRule.toJson := by
    rw [List.map_map]
    exact List.map_congr_left fun r _ => approvalRule_stored r
  simp only [Form.policy, Form.policySlots, Policy.stored, Form.list, hrules]

/-! ### The signature is a field of its own -/

theorem filter_entriesOf (slots : Slots) (name : String) :
    (entriesOf slots).filter (·.1 != name) =
      entriesOf (slots.filter (·.1 != name)) := by
  induction slots with
  | nil => rfl
  | cons s slots ih =>
      obtain ⟨key, value⟩ := s
      by_cases hkey : key = name <;> cases value <;>
        simp_all [entriesOf]

theorem entriesOf_filter {slots : Slots} {name : String}
    (h : ∀ s ∈ slots, s.1 = name → s.2 = none) :
    entriesOf (slots.filter (·.1 != name)) = entriesOf slots := by
  induction slots with
  | nil => rfl
  | cons s slots ih =>
      obtain ⟨key, value⟩ := s
      rw [List.forall_mem_cons] at h
      have htail := ih h.2
      by_cases hkey : key = name
      · have hnone : value = none := h.1 hkey
        simp_all [entriesOf]
      · cases value <;> simp_all [entriesOf]

theorem stripSignature_policy (p : Policy) :
    stripSignature ((Form.policy time).toJson p) =
      (Form.policy time).toJson { p with signature := none } := by
  have hslots : (Form.policySlots time p).filter (·.1 != "signature") =
      (Form.policySlots time { p with signature := none }).filter
        (·.1 != "signature") := rfl
  have hnone : ∀ s ∈ Form.policySlots time { p with signature := none },
      s.1 = "signature" → s.2 = none := by
    simp [Form.policySlots, List.forall_mem_cons, -List.mem_cons, -Prod.forall]
  simp only [Form.policy, record, stripSignature, filter_entriesOf, hslots,
    entriesOf_filter hnone]

/-- The derived serializers, and a message for what does not read as a policy.
A version is a `u64`. -/
def derivedCodec (scalar : ScalarText) (invalid : Json → String) :
    SigningCodec where
  scalar := scalar
  toValue p :=
    if p.version < 2 ^ 64 then .ok ((Form.policy time).toJson p)
    else .error "version out of range"
  fromValue value :=
    match (Form.policy time).fromJson value with
    | some p => .ok p
    | none => .error (invalid value)
  canonical p value h := by
    split at h
    · rw [← Except.ok.inj h]
      exact (Form.policy time).canonical p
    · contradiction
  fromValue_toValue p value h := by
    split at h
    next hversion =>
      have hkept : (Form.policy time).kept p = p.stored := by
        change { p.stored with version := p.version % 2 ^ 64 } = p.stored
        rw [Nat.mod_eq_of_lt hversion]
        rfl
      rw [← Except.ok.inj h, (Form.policy time).fromJson_toJson, hkept]
    next => contradiction
  toValue_stored p := by
    rw [policy_stored]
    rfl
  toValue_signature p signature := by
    by_cases hversion : p.version < 2 ^ 64
    · simp only [hversion, if_true, Except.map, stripSignature_policy]
    · simp only [hversion, if_false, Except.map]

/-! ## What the bytes tell of a policy -/

/-- A whole number of milliseconds that is a `u64`. -/
def IsMillis (timeout : ℕ) : Prop :=
  timeout % 10 ^ 6 = 0 ∧ timeout / 10 ^ 6 < 2 ^ 64

/-- A policy of the crate, with timeouts that are stored as they are. -/
structure Policy.Exact (p : Policy) : Prop where
  version : p.version < 2 ^ 64
  timeouts : ∀ r ∈ p.requireApproval, ∀ t ∈ r.timeout, IsMillis t

theorem storedTimeout_of_isMillis {t : ℕ} (h : IsMillis t) :
    storedTimeout t = t := by
  rw [storedTimeout, Nat.mod_eq_of_lt h.2]
  exact Nat.div_mul_cancel (Nat.dvd_of_mod_eq_zero h.1)

theorem Policy.Exact.stored {p : Policy} (h : p.Exact) : p.stored = p := by
  have hrule : ∀ r ∈ p.requireApproval, r.stored = id r := by
    intro r hr
    have htimeouts := h.timeouts r hr
    cases r with
    | mk action approvers timeout fallback =>
        cases timeout with
        | none => rfl
        | some t =>
            have ht := storedTimeout_of_isMillis (htimeouts t rfl)
            simp [ApprovalRule.stored, ht]
  rw [Policy.stored, List.map_congr_left hrule, List.map_id]

variable {scalar : ScalarText} {invalid : Json → String}

theorem canonicalize_derived {p : Policy} (h : p.version < 2 ^ 64) :
    canonicalize (derivedCodec time scalar invalid) p =
      .ok (writeCanonical scalar
        ((Form.policy time).toJson { p with signature := none })) := by
  simp only [canonicalize, derivedCodec, h, if_true, Except.map,
    stripSignature_policy]

theorem isValue_policy (p : Policy) :
    ((Form.policy time).toJson p).isValue = true :=
  Json.isValue_of_isCanonical ((Form.policy time).canonical p)

theorem policy_injective {p q : Policy} (hp : p.Exact) (hq : q.Exact)
    (h : (Form.policy time).toJson p = (Form.policy time).toJson q) :
    p = q := by
  have hread : ∀ p : Policy, p.Exact →
      (Form.policy time).fromJson ((Form.policy time).toJson p) = some p := by
    intro p hp
    rw [(Form.policy time).fromJson_toJson]
    change some { p.stored with version := p.version % 2 ^ 64 } = some p
    rw [hp.stored, Nat.mod_eq_of_lt hp.version]
  have hsame := hread p hp
  rw [h, hread q hq] at hsame
  exact (Option.some.inj hsame).symm

theorem writeCanonical_policy_iff (hscalar : scalar.Legible) {p q : Policy}
    (hp : p.Exact) (hq : q.Exact) :
    writeCanonical scalar
          ((Form.policy time).toJson { p with signature := none }) =
        writeCanonical scalar
          ((Form.policy time).toJson { q with signature := none }) ↔
      { p with signature := none } = { q with signature := none } := by
  constructor
  · intro heq
    have hsame := (writeCanonical_eq_iff hscalar (isValue_policy time _)
      (isValue_policy time _)).mp heq
    have hjson := Json.eq_of_same ((Form.policy time).canonical _)
      ((Form.policy time).canonical _) hsame
    exact policy_injective time ⟨hp.version, hp.timeouts⟩
      ⟨hq.version, hq.timeouts⟩ hjson
  · intro heq
    rw [heq]

/-- A policy that was written and read back has the bytes it had. -/
theorem canonicalize_of_fromValue {p q : Policy} {value : Json}
    (codec : SigningCodec) (hvalue : codec.toValue p = .ok value)
    (hread : codec.fromValue value = .ok q) :
    canonicalize codec q = canonicalize codec p := by
  rw [codec.fromValue_toValue p value hvalue] at hread
  rw [← Except.ok.inj hread, canonicalize, codec.toValue_stored, canonicalize]

namespace PlainScalars

def digits (n : ℕ) : Bytes := (Nat.toDigits 10 n).map Char.toUInt8

/-- A quote and a backslash take a backslash before them. -/
def escapeByte (b : UInt8) : Bytes :=
  if b = '"'.toUInt8 ∨ b = '\\'.toUInt8 then ['\\'.toUInt8, b] else [b]

def printed : ScalarText
  | .null => "null".toList.map Char.toUInt8
  | .bool true => "true".toList.map Char.toUInt8
  | .bool false => "false".toList.map Char.toUInt8
  | .number (.posInt u) => digits u.toNat
  | .number (.negInt i) => '-'.toUInt8 :: digits i.toInt.natAbs
  | .number (.float f) => '.'.toUInt8 :: digits f.bits.toNat
  | .string s =>
      '"'.toUInt8 :: (s.toByteArray.data.toList.flatMap escapeByte ++
        ['"'.toUInt8])
  | .array _ | .object _ => []

/-! #### Digits -/

theorem toNat_toUInt8 {c : Char} (hc : c.isDigit = true) :
    c.toUInt8.toNat = c.toNat ∧ 48 ≤ c.toNat ∧ c.toNat ≤ 57 := by
  have hbounds : 48 ≤ c.toNat ∧ c.toNat ≤ 57 := Char.isDigit_iff_toNat.mp hc
  refine ⟨?_, hbounds⟩
  simp only [Char.toUInt8, UInt32.toNat_toUInt8, Char.toNat_val]
  omega

theorem isDigit_of_mem {n : ℕ} {c : Char} (h : c ∈ Nat.toDigits 10 n) :
    c.isDigit = true :=
  Nat.isDigit_of_mem_toDigits (by decide) (by decide) h

def value (bytes : Bytes) : ℕ :=
  Nat.ofDigitChars 10 (bytes.map fun b => Char.ofNat b.toNat) 0

theorem value_digits (n : ℕ) : value (digits n) = n := by
  have hback : (digits n).map (fun b => Char.ofNat b.toNat) =
      (Nat.toDigits 10 n).map id := by
    rw [digits, List.map_map]
    refine List.map_congr_left fun c hc => ?_
    have hbyte := (toNat_toUInt8 (isDigit_of_mem hc)).1
    simp only [Function.comp_apply, hbyte, Char.ofNat_toNat, id]
  rw [value, hback, List.map_id, Nat.ofDigitChars_ten_toDigits]

theorem mem_digits {n : ℕ} {b : UInt8} (h : b ∈ digits n) :
    48 ≤ b.toNat ∧ b.toNat ≤ 57 := by
  obtain ⟨c, hc, rfl⟩ := List.mem_map.mp h
  obtain ⟨hbyte, hbounds⟩ := toNat_toUInt8 (isDigit_of_mem hc)
  rw [hbyte]
  exact hbounds

theorem digits_eq_cons (n : ℕ) : ∃ b rest, digits n = b :: rest := by
  have hne : digits n ≠ [] := by simp [digits]
  exact List.exists_cons_of_ne_nil hne

/-! #### Words -/

/-- The bytes of the marks and of a quote. -/
def punctuation : List ℕ := [34, 44, 58, 91, 93, 123, 125]

/-- A byte of the text of a number, a Boolean or `null`. -/
def IsPlain (b : UInt8) : Prop := b.toNat ∉ punctuation

instance (b : UInt8) : Decidable (IsPlain b) :=
  inferInstanceAs (Decidable (_ ∉ _))

theorem IsPlain.notMem_marks {b : UInt8} (h : IsPlain b) : b ∉ marks := by
  have hmarks : ∀ c ∈ ([44, 58, 93, 125] : Bytes), c.toNat ∈ punctuation := by
    simp [punctuation]
  exact fun hb => h (hmarks b hb)

theorem IsPlain.notMem_openings {b : UInt8} (h : IsPlain b) :
    b ∉ openings := by
  have hopenings : ∀ c ∈ ([91, 123] : Bytes), c.toNat ∈ punctuation := by
    simp [punctuation]
  exact fun hb => h (hopenings b hb)

theorem IsPlain.ne_quote {b : UInt8} (h : IsPlain b) : b ≠ '"'.toUInt8 := by
  rintro rfl
  exact h (List.mem_cons_self)

theorem isPlain_of_mem_digits {n : ℕ} {b : UInt8} (h : b ∈ digits n) :
    IsPlain b := by
  have hbounds := mem_digits h
  simp only [IsPlain, punctuation, List.mem_cons, List.not_mem_nil, or_false,
    not_or]
  omega

def isWord : Json → Bool
  | .string _ => false
  | value => value.isScalar

theorem isPlain_of_mem_printed {a : Json} (ha : isWord a = true) {b : UInt8}
    (h : b ∈ printed a) : IsPlain b := by
  cases a with
  | null =>
      have hword : ∀ c ∈ ([110, 117, 108, 108] : Bytes), IsPlain c := by
        simp [IsPlain, punctuation]
      exact hword b h
  | bool x =>
      have htrue : ∀ c ∈ ([116, 114, 117, 101] : Bytes), IsPlain c := by
        simp [IsPlain, punctuation]
      have hfalse : ∀ c ∈ ([102, 97, 108, 115, 101] : Bytes), IsPlain c := by
        simp [IsPlain, punctuation]
      cases x with
      | true => exact htrue b h
      | false => exact hfalse b h
  | number n =>
      cases n with
      | posInt u => exact isPlain_of_mem_digits h
      | negInt i =>
          have hminus : IsPlain 45 := by simp [IsPlain, punctuation]
          rcases List.mem_cons.mp h with rfl | h
          · exact hminus
          · exact isPlain_of_mem_digits h
      | float f =>
          have hdot : IsPlain 46 := by simp [IsPlain, punctuation]
          rcases List.mem_cons.mp h with rfl | h
          · exact hdot
          · exact isPlain_of_mem_digits h
  | _ => simp [isWord, Json.isScalar] at ha

theorem printed_eq_cons {a : Json} (ha : isWord a = true) :
    ∃ b rest, printed a = b :: rest := by
  cases a with
  | null => exact ⟨_, _, rfl⟩
  | bool x => cases x <;> exact ⟨_, _, rfl⟩
  | number n =>
      cases n with
      | posInt u => exact digits_eq_cons u.toNat
      | _ => exact ⟨_, _, rfl⟩
  | _ => simp [isWord, Json.isScalar] at ha

/-- The value that was printed as a word. -/
def wordOf : Bytes → Json
  | [] => .null
  | b :: rest =>
      if b = 'n'.toUInt8 then .null
      else if b = 't'.toUInt8 then .bool true
      else if b = 'f'.toUInt8 then .bool false
      else if b = '-'.toUInt8 then
        .number (.negInt (Int64.ofInt (-(value rest : ℤ))))
      else if b = '.'.toUInt8 then
        .number (.float ⟨UInt64.ofNat (value rest)⟩)
      else .number (.posInt (UInt64.ofNat (value (b :: rest))))

theorem wordOf_digits (n : ℕ) :
    wordOf (digits n) = .number (.posInt (UInt64.ofNat n)) := by
  obtain ⟨b, rest, hcons⟩ := digits_eq_cons n
  have hbounds : 48 ≤ b.toNat ∧ b.toNat ≤ 57 :=
    mem_digits (n := n) (by simp [hcons])
  have hother : ∀ c : Char, (c.toUInt8.toNat < 48 ∨ 57 < c.toUInt8.toNat) →
      b ≠ c.toUInt8 := by
    rintro c hc rfl
    omega
  rw [hcons, wordOf, if_neg (hother 'n' (by decide)),
    if_neg (hother 't' (by decide)), if_neg (hother 'f' (by decide)),
    if_neg (hother '-' (by decide)), if_neg (hother '.' (by decide)), ← hcons,
    value_digits]

theorem wordOf_printed {a : Json} (hword : isWord a = true)
    (ha : a.isValue = true) : wordOf (printed a) = a := by
  cases a with
  | null => rfl
  | bool x => cases x <;> rfl
  | number n =>
      cases n with
      | posInt u => simp [printed, wordOf_digits]
      | negInt i =>
          have hneg : i < 0 := by
            simpa [Json.isValue, Number.isCanonical] using ha
          have hint : i.toInt < 0 := by
            simpa using Int64.lt_iff_toInt_lt.mp hneg
          have hback : -((i.toInt.natAbs : ℕ) : ℤ) = i.toInt := by omega
          rw [printed, wordOf, if_neg (by decide), if_neg (by decide),
            if_neg (by decide), if_pos rfl, value_digits, hback,
            Int64.ofInt_toInt]
      | float f =>
          rw [printed, wordOf, if_neg (by decide), if_neg (by decide),
            if_neg (by decide), if_neg (by decide), if_pos rfl, value_digits,
            UInt64.ofNat_toNat]
  | _ => simp [isWord, Json.isScalar] at hword

/-! #### Strings -/

theorem escapeByte_recovered (a b : UInt8) (rest rest' : Bytes)
    (h : escapeByte a ++ rest = escapeByte b ++ rest') :
    a = b ∧ rest = rest' := by
  unfold escapeByte at h
  split at h <;> split at h
  next => simpa using h
  next hb =>
    simp only [List.cons_append, List.nil_append, List.cons.injEq] at h
    exact absurd (Or.inr h.1.symm) hb
  next ha _ =>
    simp only [List.cons_append, List.nil_append, List.cons.injEq] at h
    exact absurd (Or.inr h.1) ha
  next => simpa using h

theorem escapeByte_ne_quote (a : UInt8) (rest rest' : Bytes) :
    escapeByte a ++ rest ≠ '"'.toUInt8 :: rest' := by
  intro h
  unfold escapeByte at h
  split at h
  next =>
    rw [List.cons_append, List.cons.injEq] at h
    exact absurd h.1 (by decide)
  next ha =>
    rw [List.cons_append, List.cons.injEq] at h
    exact ha (Or.inl h.1)

theorem string_recovered {s t : String} {rest rest' : Bytes}
    (h : printed (.string s) ++ rest = printed (.string t) ++ rest') :
    s = t ∧ rest = rest' := by
  simp only [printed, List.cons_append, List.append_assoc, List.nil_append,
    List.cons.injEq, true_and] at h
  obtain ⟨hbytes, hrest⟩ := units_recovered escapeByte_recovered
    escapeByte_ne_quote h
  exact ⟨String.toByteArray_inj.mp
    (ByteArray.ext (Array.toList_inj.mp hbytes)), hrest⟩

theorem isWord_or_string {a : Json} (ha : a.isScalar = true) :
    isWord a = true ∨ ∃ s, a = .string s := by
  cases a <;> simp_all [isWord, Json.isScalar]

theorem word_ne_string {a : Json} (ha : isWord a = true) (s : String)
    (rest rest' : Bytes) :
    printed a ++ rest ≠ printed (.string s) ++ rest' := by
  intro h
  obtain ⟨b, text, hb⟩ := printed_eq_cons ha
  rw [hb, List.cons_append, printed, List.cons_append, List.cons.injEq] at h
  exact (isPlain_of_mem_printed ha (by simp [hb])).ne_quote h.1

theorem legible : ScalarText.Legible printed where
  recovers a ha b hb rest rest' hrest hrest' h := by
    rcases isWord_or_string ha.1 with hword | ⟨s, rfl⟩ <;>
      rcases isWord_or_string hb.1 with hword' | ⟨t, rfl⟩
    · obtain ⟨heq, hrests⟩ := word_recovered
        (fun c hc => (isPlain_of_mem_printed hword hc).notMem_marks)
        (fun c hc => (isPlain_of_mem_printed hword' hc).notMem_marks)
        hrest hrest' h
      refine ⟨?_, hrests⟩
      rw [← wordOf_printed hword ha.2, heq, wordOf_printed hword' hb.2]
    · exact absurd h (word_ne_string hword t _ _)
    · exact absurd h.symm (word_ne_string hword' s _ _)
    · obtain ⟨rfl, hrests⟩ := string_recovered h
      exact ⟨rfl, hrests⟩
  opens a ha := by
    rcases isWord_or_string ha.1 with hword | ⟨s, rfl⟩
    · obtain ⟨b, text, hb⟩ := printed_eq_cons hword
      have hplain := isPlain_of_mem_printed hword (b := b) (by simp [hb])
      exact ⟨b, text, hb, hplain.notMem_marks, hplain.notMem_openings⟩
    · exact ⟨_, _, rfl, by decide, by decide⟩

/-- The epoch as `chrono` writes it, and other times in strokes. -/
def clock : PostgresRows.TimeText where
  format t :=
    if t = 0 then "1970-01-01T00:00:00Z"
    else PostgresRows.Changed.strokes.format t
  parse s :=
    if s = "1970-01-01T00:00:00Z" then some 0
    else PostgresRows.Changed.strokes.parse s
  parse_format t := by
    by_cases hzero : t = 0
    · simp [hzero]
    · have hne : PostgresRows.Changed.strokes.format t ≠
          "1970-01-01T00:00:00Z" := by
        intro heq
        have hdigit : '1' ∈ (PostgresRows.Changed.strokes.format t).toList := by
          rw [heq]
          decide
        simp [PostgresRows.Changed.strokes] at hdigit
      simp only [if_neg hzero, if_neg hne,
        PostgresRows.Changed.strokes.parse_format]

/-! ### A policy for two tenants -/

def gate (tenantId : Option String) (signature : Option PolicySignature) :
    Policy where
  path := "gate"
  version := 1
  situation := "pod failing"
  situationSelector := .not (.eq "team" "ops")
  allow := []
  deny := []
  requireApproval := [⟨"restart", ["ops"], some (5 * 10 ^ 9), .block⟩]
  procedure := none
  triggers := []
  requiredFields := []
  severity := .low
  proposedBy := "ops"
  proposedAt := 0
  ratifiedBy := none
  ratifiedAt := none
  ratificationReasoning := none
  activeFrom := 0
  expiresAt := none
  supersedes := none
  signature := signature
  tenantId := tenantId
  externalEvaluator := none

theorem gate_exact (tenantId : Option String)
    (signature : Option PolicySignature) : (gate tenantId signature).Exact where
  version := by simp [gate]
  timeouts r hr t ht := by
    have hrule : r = ⟨"restart", ["ops"], some (5 * 10 ^ 9), .block⟩ :=
      List.mem_singleton.mp hr
    rw [hrule, Option.mem_some_iff] at ht
    rw [← ht]
    exact ⟨by norm_num, by norm_num⟩

def gateCodec : SigningCodec :=
  derivedCodec clock printed fun _ => "invalid policy"

def gateStore : Storage ContentKey := ContentKey.documentStore (.object [])

def writeGate : Outcome ContentKey ContentKey :=
  Repository.new.setJson gateStore "main" "/gate"
    ((Form.policy clock).toJson (gate none none))
    (ContentKey.options .policyPropose) [] fun _ => 0

set_option maxRecDepth 16384 in
theorem writeGate_ok : writeGate.1.toBool = true := by decide

end PlainScalars

end Policies

end AgentStateGraph
