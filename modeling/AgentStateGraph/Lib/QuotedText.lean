import Mathlib

/-!
# Quoted texts with escapes

A quoted text ends at the first quote that no escape takes, and each escape
stands for one character.  Of a text that its writer quotes as it stands, the
reader takes the whole, with its escapes replaced, or stops at a quote in it;
it reads back what was written only where there is no quote and no escape.
-/

variable {α β : Type}

/-! ## Readers of a front -/

/-- The reader takes words off the front of a text, and takes no notice of what
follows them. -/
structure ReadsFront (read : List α → Option (β × List α)) : Prop where
  append : ∀ {s c rest} (more : List α), read s = some (c, rest) →
    read (s ++ more) = some (c, rest ++ more)
  word : ∀ {s c rest}, read s = some (c, rest) →
    ∃ word, s = word ++ rest ∧ read word = some (c, [])

namespace ReadsFront

theorem value (o : Option β) :
    ReadsFront fun s : List α => o.map fun c => (c, s) where
  append := by
    intro s c rest more h
    cases o with
    | none => simp at h
    | some c => simp_all
  word := by
    intro s c rest h
    cases o with
    | none => simp at h
    | some c =>
        obtain ⟨rfl, rfl⟩ : c = _ ∧ s = rest := by simpa using h
        exact ⟨[], rfl, rfl⟩

theorem failing : ReadsFront fun _ : List α => (none : Option (β × List α)) where
  append := by simp
  word := by simp

theorem cons {read : List α → Option (β × List α)}
    {after : α → List α → Option (β × List α)} (hnil : read [] = none)
    (hcons : ∀ a s, read (a :: s) = after a s)
    (h : ∀ a, ReadsFront (after a)) : ReadsFront read where
  append := by
    intro s c rest more hread
    cases s with
    | nil => simp [hnil] at hread
    | cons a s =>
        rw [hcons] at hread
        rw [List.cons_append, hcons]
        exact (h a).append more hread
  word := by
    intro s c rest hread
    cases s with
    | nil => simp [hnil] at hread
    | cons a s =>
        rw [hcons] at hread
        obtain ⟨word, rfl, hword⟩ := (h a).word hread
        exact ⟨a :: word, rfl, by rw [hcons, hword]⟩

/-- The value of the text before the first `close`. -/
def upTo [DecidableEq α] (close : α) (value : List α → Option β) :
    List α → Option (β × List α)
  | [] => none
  | a :: s =>
      if a = close then (value []).map fun c => (c, s)
      else upTo close (fun before => value (a :: before)) s

theorem upTo_reads [DecidableEq α] (close : α) (value : List α → Option β) :
    ReadsFront (upTo close value) where
  append := by
    intro s c rest more h
    induction s generalizing value with
    | nil => simp [upTo] at h
    | cons a s ih =>
        rw [List.cons_append, upTo]
        rw [upTo] at h
        split at h
        next hclose =>
          rw [if_pos hclose]
          exact (ReadsFront.value (value [])).append more h
        next hclose =>
          rw [if_neg hclose]
          exact ih _ h
  word := by
    intro s c rest h
    induction s generalizing value with
    | nil => simp [upTo] at h
    | cons a s ih =>
        rw [upTo] at h
        split at h
        next hclose =>
          obtain ⟨word, rfl, hword⟩ := (ReadsFront.value (value [])).word h
          exact ⟨a :: word, rfl, by rw [upTo, if_pos hclose]; exact hword⟩
        next hclose =>
          obtain ⟨word, rfl, hword⟩ := ih _ h
          exact ⟨a :: word, rfl, by rw [upTo, if_neg hclose]; exact hword⟩

end ReadsFront

/-! ## Quoted texts -/

/-- The escapes of a quoted text: what follows the mark, and the character it
stands for. -/
structure Escapes (α : Type) where
  quote : α
  mark : α
  quote_ne_mark : quote ≠ mark
  read : List α → Option (α × List α)
  read_nil : read [] = none
  reads_front : ReadsFront read

namespace Escapes

variable (e : Escapes α)

/-- What the text of a body stands for. -/
inductive Decodes : List α → List α → Prop where
  | nil : Decodes [] []
  | plain {c body decoded} : c ≠ e.quote → c ≠ e.mark →
      Decodes body decoded → Decodes (c :: body) (c :: decoded)
  | escape {word c body decoded} : e.read word = some (c, []) →
      Decodes body decoded →
      Decodes (e.mark :: (word ++ body)) (c :: decoded)

/-- Ordinary characters and escapes, to the end. -/
def WellEscaped (s : List α) : Prop := ∃ decoded, e.Decodes s decoded

/-- The text, quoted as it stands, is read: it is well escaped, or it is so up
to a quote, and what is then left over is accepted. -/
def Readable (follows : List α → Bool) (s : List α) : Prop :=
  e.WellEscaped s ∨ ∃ body rest, s = body ++ e.quote :: rest ∧
    e.WellEscaped body ∧ follows (rest ++ [e.quote]) = true

variable {e}

section

variable {rest body decoded : List α}

theorem read_word_append {word : List α} {c : α}
    (h : e.read word = some (c, [])) :
    e.read (word ++ rest) = some (c, rest) := by
  simpa using e.reads_front.append rest h

theorem ne_nil_of_read {word : List α} {c : α}
    (h : e.read word = some (c, rest)) : word ≠ [] := by
  rintro rfl
  simp [e.read_nil] at h

/-! ## Decoded texts -/

theorem Decodes.length_le (h : e.Decodes body decoded) :
    decoded.length ≤ body.length := by
  induction h with
  | nil => simp
  | plain _ _ _ ih => simpa using ih
  | @escape word c body decoded hword _ ih =>
      simp only [List.length_cons, List.length_append]
      omega

/-- An escape is longer than what it stands for. -/
theorem Decodes.length_lt (h : e.Decodes body decoded) (hmark : e.mark ∈ body) :
    decoded.length < body.length := by
  induction h with
  | nil => simp at hmark
  | @plain c body decoded _ hne _ ih =>
      have hbody : e.mark ∈ body := by simpa [hne.symm] using hmark
      simpa using ih hbody
  | @escape word c body decoded hword hbody _ =>
      have hpos : 0 < word.length :=
        List.length_pos_iff.mpr (ne_nil_of_read hword)
      have hle := hbody.length_le
      simp only [List.length_cons, List.length_append]
      omega

theorem decodes_self (hquote : e.quote ∉ body) (hmark : e.mark ∉ body) :
    e.Decodes body body := by
  induction body with
  | nil => exact .nil
  | cons c body ih =>
      simp only [List.mem_cons, not_or] at hquote hmark
      exact .plain (Ne.symm hquote.1) (Ne.symm hmark.1) (ih hquote.2 hmark.2)

theorem Decodes.eq_self (h : e.Decodes body decoded) (hmark : e.mark ∉ body) :
    decoded = body ∧ e.quote ∉ body := by
  induction h with
  | nil => simp
  | @plain c body decoded hquote _ _ ih =>
      obtain ⟨rfl, hbody⟩ := ih (by simp at hmark; exact hmark.2)
      simpa [Ne.symm hquote] using hbody
  | escape _ _ _ => simp at hmark

theorem quoted_eq_iff {s : List α} :
    s ++ [e.quote] = body ++ e.quote :: rest ↔
      (s = body ∧ rest = []) ∨
        ∃ rest', s = body ++ e.quote :: rest' ∧ rest = rest' ++ [e.quote] := by
  constructor
  · intro h
    rcases List.eq_nil_or_concat rest with rfl | ⟨rest', c, rfl⟩
    · exact Or.inl ⟨List.append_cancel_right h, rfl⟩
    · refine Or.inr ⟨rest', ?_⟩
      have h' : s ++ [e.quote] = (body ++ e.quote :: rest') ++ [c] := by
        simpa using h
      obtain ⟨hs, hc⟩ := List.append_inj' h' rfl
      simpa [hs] using hc.symm
  · rintro (⟨rfl, rfl⟩ | ⟨rest', rfl, rfl⟩)
    · rfl
    · simp

end

/-! ## Reading -/

section Reading

variable [DecidableEq α]

variable (e) in
/-- Read up to the first quote, and what stands after it. -/
def readBody : ℕ → List α → Option (List α × List α)
  | 0, _ => none
  | _ + 1, [] => none
  | fuel + 1, c :: s =>
      if c = e.quote then some ([], s)
      else if c = e.mark then do
        let (d, s) ← e.read s
        let (body, rest) ← readBody fuel s
        some (d :: body, rest)
      else do
        let (body, rest) ← readBody fuel s
        some (c :: body, rest)

variable (e) in
/-- No longer text than this is read. -/
def readQuoted (s : List α) : Option (List α × List α) :=
  e.readBody s.length s

variable (e) in
/-- Read a quoted text that something acceptable follows. -/
def readLiteral (follows : List α → Bool) (s : List α) : Option (List α) := do
  let (decoded, rest) ← e.readQuoted s
  if follows rest then some decoded else none

theorem exists_decodes_of_readBody {fuel : ℕ} {s decoded rest : List α}
    (h : e.readBody fuel s = some (decoded, rest)) :
    ∃ body, s = body ++ e.quote :: rest ∧ e.Decodes body decoded := by
  induction fuel generalizing s decoded with
  | zero => simp [readBody] at h
  | succ fuel ih =>
      cases s with
      | nil => simp [readBody] at h
      | cons c s =>
          rw [readBody] at h
          split at h
          next hquote =>
              obtain ⟨rfl, rfl⟩ : [] = decoded ∧ s = rest := by simpa using h
              exact ⟨[], by simp [hquote], .nil⟩
          next hquote =>
              split at h
              next hmark =>
                  obtain ⟨⟨d, s'⟩, hd, h⟩ := Option.bind_eq_some_iff.mp h
                  obtain ⟨⟨decoded', rest'⟩, hread, h⟩ :=
                    Option.bind_eq_some_iff.mp h
                  obtain ⟨rfl, rfl⟩ : d :: decoded' = decoded ∧ rest' = rest := by
                    simpa using h
                  obtain ⟨body, rfl, hbody⟩ := ih hread
                  obtain ⟨word, rfl, hword⟩ := e.reads_front.word hd
                  exact ⟨c :: (word ++ body), by simp,
                    hmark ▸ .escape hword hbody⟩
              next hmark =>
                  obtain ⟨⟨decoded', rest'⟩, hread, h⟩ :=
                    Option.bind_eq_some_iff.mp h
                  obtain ⟨rfl, rfl⟩ : c :: decoded' = decoded ∧ rest' = rest := by
                    simpa using h
                  obtain ⟨body, rfl, hbody⟩ := ih hread
                  exact ⟨c :: body, by simp, .plain hquote hmark hbody⟩

theorem readBody_of_decodes {fuel : ℕ} {body decoded rest : List α}
    (h : e.Decodes body decoded) (hfuel : body.length < fuel) :
    e.readBody fuel (body ++ e.quote :: rest) = some (decoded, rest) := by
  induction h generalizing fuel with
  | nil =>
      obtain ⟨fuel, rfl⟩ := Nat.exists_eq_add_of_lt hfuel
      simp [readBody]
  | @plain c body decoded hquote hmark _ ih =>
      obtain ⟨fuel, rfl⟩ := Nat.exists_eq_succ_of_ne_zero hfuel.ne_bot
      have hrest : e.readBody fuel (body ++ e.quote :: rest) =
          some (decoded, rest) := ih (by simpa using hfuel)
      simp [readBody, hquote, hmark, hrest]
  | @escape word c body decoded hword _ ih =>
      obtain ⟨fuel, rfl⟩ := Nat.exists_eq_succ_of_ne_zero hfuel.ne_bot
      have hbody : body.length < fuel := by
        simp only [List.length_cons, List.length_append] at hfuel
        omega
      have hrest := ih hbody
      have hread : e.read (word ++ (body ++ e.quote :: rest)) =
          some (c, body ++ e.quote :: rest) := read_word_append hword
      simp [readBody, e.quote_ne_mark.symm, List.append_assoc, hread, hrest]

theorem readQuoted_eq_some_iff {s decoded rest : List α} :
    e.readQuoted s = some (decoded, rest) ↔
      ∃ body, s = body ++ e.quote :: rest ∧ e.Decodes body decoded := by
  constructor
  · exact exists_decodes_of_readBody
  · rintro ⟨body, rfl, h⟩
    exact readBody_of_decodes h (by simp)

/-! ## A text quoted as it stands -/

variable {follows : List α → Bool} {s : List α}

theorem readLiteral_eq_some_iff {decoded : List α} :
    e.readLiteral follows (s ++ [e.quote]) = some decoded ↔
      (e.Decodes s decoded ∧ follows [] = true) ∨
        ∃ body rest, s = body ++ e.quote :: rest ∧ e.Decodes body decoded ∧
          follows (rest ++ [e.quote]) = true := by
  have hread : e.readLiteral follows (s ++ [e.quote]) = some decoded ↔
      ∃ rest body, (s ++ [e.quote] = body ++ e.quote :: rest ∧
        e.Decodes body decoded) ∧ follows rest = true := by
    simp only [readLiteral, Option.bind_eq_bind, Option.bind_eq_some_iff,
      Prod.exists, readQuoted_eq_some_iff]
    grind
  rw [hread]
  simp only [quoted_eq_iff]
  constructor
  · rintro ⟨rest, body, ⟨⟨rfl, rfl⟩ | ⟨rest', rfl, rfl⟩, hbody⟩, hfollows⟩
    · exact Or.inl ⟨hbody, hfollows⟩
    · exact Or.inr ⟨body, rest', rfl, hbody, hfollows⟩
  · rintro (⟨hbody, hfollows⟩ | ⟨body, rest', rfl, hbody, hfollows⟩)
    · exact ⟨[], s, ⟨Or.inl ⟨rfl, rfl⟩, hbody⟩, hfollows⟩
    · exact ⟨rest' ++ [e.quote], body, ⟨Or.inr ⟨rest', rfl, rfl⟩, hbody⟩,
        hfollows⟩

theorem readLiteral_eq_self_iff (hend : follows [] = true) :
    e.readLiteral follows (s ++ [e.quote]) = some s ↔
      e.quote ∉ s ∧ e.mark ∉ s := by
  rw [readLiteral_eq_some_iff]
  constructor
  · rintro (⟨h, -⟩ | ⟨body, rest, hs, h, -⟩)
    · have hmark : e.mark ∉ s := fun hmark => (h.length_lt hmark).ne rfl
      exact ⟨(h.eq_self hmark).2, hmark⟩
    · have hle := h.length_le
      have hlen := congrArg List.length hs
      simp only [List.length_append, List.length_cons] at hlen
      omega
  · rintro ⟨hquote, hmark⟩
    exact Or.inl ⟨decodes_self hquote hmark, hend⟩

theorem exists_readLiteral_iff (hend : follows [] = true) :
    (∃ decoded, e.readLiteral follows (s ++ [e.quote]) = some decoded) ↔
      e.Readable follows s := by
  simp only [readLiteral_eq_some_iff, hend, and_true, exists_or]
  refine or_congr Iff.rfl ?_
  constructor
  · rintro ⟨decoded, body, rest, hs, h, hfollows⟩
    exact ⟨body, rest, hs, ⟨decoded, h⟩, hfollows⟩
  · rintro ⟨body, rest, hs, ⟨decoded, h⟩, hfollows⟩
    exact ⟨decoded, body, rest, hs, h, hfollows⟩

end Reading

end Escapes
