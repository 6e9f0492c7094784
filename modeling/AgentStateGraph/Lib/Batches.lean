import AgentStateGraph.Lib.KeyedMap
import AgentStateGraph.Lib.Marking

/-!
# Fetching in batches

The keys that are wanted, each once and in the order they were first wanted,
are asked for in batches of a limited size.  The answers make a map, and the
first key without an answer is the error: the same as asking for the keys one
by one.
-/

namespace Batches

variable {α : Type} [DecidableEq α]

/-- `filter(|x| seen.insert(x))`: every element the first time it comes. -/
def distinct (seen : List α) : List α → List α
  | [] => []
  | x :: xs =>
      if x ∈ seen then distinct seen xs else x :: distinct (x :: seen) xs

theorem mem_distinct {seen l : List α} {x : α} :
    x ∈ distinct seen l ↔ x ∈ l ∧ x ∉ seen := by
  induction l generalizing seen with
  | nil => simp [distinct]
  | cons y l ih =>
      rw [distinct]
      by_cases hy : y ∈ seen
      · rw [if_pos hy, ih]
        constructor
        · rintro ⟨hx, hseen⟩
          exact ⟨List.mem_cons_of_mem _ hx, hseen⟩
        · rintro ⟨hx, hseen⟩
          rcases List.mem_cons.mp hx with rfl | hx
          · exact absurd hy hseen
          · exact ⟨hx, hseen⟩
      · rw [if_neg hy, List.mem_cons, ih]
        by_cases hxy : x = y
        · simp [hxy, hy]
        · simp [hxy]

/-- The first element with a property is the same among the distinct ones. -/
theorem find?_distinct (p : α → Bool) {seen l : List α}
    (hseen : ∀ x ∈ seen, p x = false) :
    (distinct seen l).find? p = l.find? p := by
  induction l generalizing seen with
  | nil => rfl
  | cons y l ih =>
      rw [distinct]
      by_cases hy : y ∈ seen
      · rw [if_pos hy, ih hseen, List.find?_cons_of_neg (by simp [hseen y hy])]
      · rw [if_neg hy]
        cases hp : p y with
        | true => rw [List.find?_cons_of_pos hp, List.find?_cons_of_pos hp]
        | false =>
            have hmore : ∀ x ∈ y :: seen, p x = false := by
              intro x hx
              rcases List.mem_cons.mp hx with rfl | hx
              · exact hp
              · exact hseen x hx
            rw [List.find?_cons_of_neg (by simp [hp]),
              List.find?_cons_of_neg (by simp [hp]), ih hmore]

/-! ## Batches -/

omit [DecidableEq α] in
/-- A loop over batches, each gone through in turn, goes through the whole. -/
theorem foldlM_chunks {m : Type → Type} [Monad m] [LawfulMonad m] {β : Type}
    (f : β → α → m β) (size : ℕ) (l : List α) (b : β) :
    (Marking.chunks size l []).foldlM (fun b chunk => chunk.foldlM f b) b =
      l.foldlM f b := by
  have hflat : ∀ (chunks : List (List α)) (b : β),
      chunks.foldlM (fun b chunk => chunk.foldlM f b) b =
        chunks.flatten.foldlM f b := by
    intro chunks
    induction chunks with
    | nil => exact fun _ => rfl
    | cons chunk chunks ih =>
        intro b
        rw [List.foldlM_cons, List.flatten_cons, List.foldlM_append]
        congr 1
        funext b
        exact ih b
  rw [hflat, Marking.flatten_chunks, List.nil_append]

section Fetch

variable {κ ν ε : Type} [LinearOrder κ] (lookup : κ → Option ν) (missing : κ → ε)

/-- What one answer does to the map. -/
def keep (fetched : Std.ExtTreeMap κ ν compare) (answer : κ × Option ν) :
    Except ε (Std.ExtTreeMap κ ν compare) :=
  match answer.2 with
  | some v => .ok (fetched.insert answer.1 v)
  | none => .error (missing answer.1)

/-- Ask for the keys in batches; the answers come in the order of the keys. -/
def fetch (size : ℕ) (keys : List κ) :
    Except ε (Std.ExtTreeMap κ ν compare) :=
  (Marking.chunks size keys []).foldlM
    (fun fetched chunk =>
      (chunk.zip (chunk.map lookup)).foldlM (keep missing) fetched)
    ∅

variable {lookup missing}

theorem fetch_eq (size : ℕ) (keys : List κ) :
    fetch lookup missing size keys =
      keys.foldlM (fun fetched k => keep missing fetched (k, lookup k)) ∅ := by
  rw [← foldlM_chunks _ size keys, fetch]
  congr 1
  funext fetched chunk
  have hzip : chunk.zip (chunk.map lookup) =
      chunk.map fun k => (k, lookup k) := by
    have hmap : (chunk.map id).zip (chunk.map lookup) =
        chunk.map fun k => (k, lookup k) := List.zip_map'
    rwa [List.map_id] at hmap
  rw [hzip, List.foldlM_map]

/-- When every key has an answer, the map has just these. -/
theorem exists_fetch (size : ℕ) {keys : List κ}
    (h : ∀ k ∈ keys, (lookup k).isSome = true) :
    ∃ fetched, fetch lookup missing size keys = .ok fetched ∧
      ∀ k ∈ keys, fetched[k]? = lookup k := by
  rw [fetch_eq]
  suffices hfold : ∀ fetched : Std.ExtTreeMap κ ν compare,
      ∃ after, keys.foldlM
          (fun fetched k => keep missing fetched (k, lookup k)) fetched =
            .ok after ∧
        (∀ k, fetched[k]? = lookup k → after[k]? = lookup k) ∧
        ∀ k ∈ keys, after[k]? = lookup k by
    obtain ⟨after, hok, -, hkeys⟩ := hfold ∅
    exact ⟨after, hok, hkeys⟩
  induction keys with
  | nil => exact fun fetched => ⟨fetched, rfl, fun _ hk => hk, by simp⟩
  | cons key keys ih =>
      intro fetched
      obtain ⟨v, hv⟩ := Option.isSome_iff_exists.mp (h key (by simp))
      obtain ⟨after, hok, hkept, hkeys⟩ :=
        ih (fun k hk => h k (List.mem_cons_of_mem _ hk)) (fetched.insert key v)
      refine ⟨after, ?_, ?_, ?_⟩
      · rw [List.foldlM_cons, hv]
        exact hok
      · intro k hk
        apply hkept
        rw [Std.ExtTreeMap.getElem?_insert]
        split
        next heq => rw [← compare_eq_iff_eq.mp heq, hv]
        next => exact hk
      · intro k hk
        rcases List.mem_cons.mp hk with rfl | hk
        · apply hkept
          rw [Std.ExtTreeMap.getElem?_insert_self, hv]
        · exact hkeys k hk

theorem fetch_eq_error (size : ℕ) {keys : List κ} {k : κ}
    (h : keys.find? (fun k => (lookup k).isNone) = some k) :
    fetch lookup missing size keys = .error (missing k) := by
  rw [fetch_eq]
  generalize (∅ : Std.ExtTreeMap κ ν compare) = fetched
  induction keys generalizing fetched with
  | nil => simp at h
  | cons key keys ih =>
      rw [List.foldlM_cons]
      cases hv : lookup key with
      | none =>
          rw [List.find?_cons_of_pos (by simp [hv])] at h
          obtain rfl := Option.some.inj h
          rfl
      | some v =>
          rw [List.find?_cons_of_neg (by simp [hv])] at h
          exact ih h _

end Fetch

end Batches
