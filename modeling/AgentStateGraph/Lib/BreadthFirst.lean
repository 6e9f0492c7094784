import AgentStateGraph.Lib.Worklist

/-!
# Walking a graph breadth first, up to a limit

`walk` is the loop `while let Some(x) = queue.pop_front()` that takes what is
found at each vertex, once, and stops when it is about to pop with as many
taken as the limit.  Some vertices have nothing to take and no successors.

`trace` is the same loop with no limit: what it takes, each with the queue
that it leaves.  A walk with a limit is an initial part of the trace, and it
reports that the limit stopped it exactly when that queue was not empty.
-/

namespace BreadthFirst

open Worklist (Reaches exploreCost exploreCost_pop)

variable {α β : Type} [DecidableEq α]

section Loop

variable (get : α → Option β) (next : β → List α)

/-- The successors of a vertex that has something to take. -/
def successors (x : α) : List α := (get x).elim [] next

/-- What was taken, and whether the limit stopped the walk. -/
def walk (limit : ℕ) : ℕ → List α → List α → List β → List β × Bool
  | 0, _, _, taken => (taken, false)
  | _ + 1, [], _, taken => (taken, false)
  | n + 1, x :: queue, seen, taken =>
      if limit ≤ taken.length then (taken, true)
      else if x ∈ seen then walk limit n queue seen taken
      else
        match get x with
        | some b =>
            walk limit n (queue ++ (next b).filter (· ∉ x :: seen)) (x :: seen)
              (taken ++ [b])
        | none => walk limit n queue (x :: seen) taken

/-- What a walk without limit takes, each with the queue that it leaves. -/
def trace : ℕ → List α → List α → List (β × List α)
  | 0, _, _ => []
  | _ + 1, [], _ => []
  | n + 1, x :: queue, seen =>
      if x ∈ seen then trace n queue seen
      else
        match get x with
        | some b =>
            let queue := queue ++ (next b).filter (· ∉ x :: seen)
            (b, queue) :: trace n queue (x :: seen)
        | none => trace n queue (x :: seen)

end Loop

/-- The queue when so many were taken. -/
def left (queue : List α) (t : List (β × List α)) : ℕ → List α
  | 0 => queue
  | r + 1 => (t[r]?.map Prod.snd).getD []

omit [DecidableEq α] in
theorem left_of_lt {queue : List α} {t : List (β × List α)} {r : ℕ}
    (h : t.length < r) : left queue t r = [] := by
  cases r with
  | zero => exact absurd h (Nat.not_lt_zero _)
  | succ r => simp [left, List.getElem?_eq_none (Nat.lt_succ_iff.mp h)]

omit [DecidableEq α] in
theorem left_cons (queue rest : List α) (b : β) (t : List (β × List α))
    (r : ℕ) : left queue ((b, rest) :: t) (r + 1) = left rest t r := by
  cases r with
  | zero => rfl
  | succ r => simp [left]

section Facts

variable {get : α → Option β} {next : β → List α} {vertices : Finset α}

/-- Pops that are enough. -/
def cost (get : α → Option β) (next : β → List α) (vertices : Finset α)
    (seen queue : List α) : ℕ :=
  exploreCost (successors get next) vertices seen queue

variable (get next vertices) in
theorem cost_pop (seen queue : List α) (x : α) :
    cost get next vertices seen queue <
      cost get next vertices seen (x :: queue) :=
  exploreCost_pop _ _ _ _ _

variable (get next vertices) in
/-- Marking a vertex as seen costs nothing. -/
theorem cost_seen (seen queue : List α) (x : α) :
    cost get next vertices (x :: seen) queue ≤
      cost get next vertices seen queue := by
  refine Nat.add_le_add_left (Finset.sum_le_sum_of_subset ?_) _
  intro y hy
  simp only [Finset.mem_filter, List.mem_cons, not_or] at hy ⊢
  exact ⟨hy.1, hy.2.2⟩

theorem cost_take {seen queue : List α} {x : α} {b : β} (hx : x ∈ vertices)
    (hseen : x ∉ seen) (hget : get x = some b) :
    cost get next vertices (x :: seen)
        (queue ++ (next b).filter (· ∉ x :: seen)) <
      cost get next vertices seen (x :: queue) := by
  have hnext : successors get next x = next b := by
    simp [successors, hget]
  have hpush := Worklist.exploreCost_push (successors get next) queue hx hseen
  rw [hnext] at hpush
  simp only [cost, exploreCost, List.length_append, List.length_reverse]
    at hpush ⊢
  omega

theorem walk_eq_trace (hsucc : ∀ x ∈ vertices,
      ∀ y ∈ successors get next x, y ∈ vertices) {limit fuel : ℕ}
    {queue seen : List α} {taken : List β} (hqueue : ∀ x ∈ queue, x ∈ vertices)
    (hfuel : cost get next vertices seen queue < fuel)
    (htaken : taken.length ≤ limit) :
    walk get next limit fuel queue seen taken =
      (taken ++ ((trace get next fuel queue seen).map Prod.fst).take
          (limit - taken.length),
        decide (left queue (trace get next fuel queue seen)
          (limit - taken.length) ≠ [])) := by
  induction fuel generalizing queue seen taken with
  | zero => exact absurd hfuel (Nat.not_lt_zero _)
  | succ n ih =>
      cases queue with
      | nil =>
          have hleft : left ([] : List α) ([] : List (β × List α))
              (limit - taken.length) = [] := by
            cases limit - taken.length <;> rfl
          simp [walk, trace, hleft]
      | cons x queue =>
          have hx := hqueue x List.mem_cons_self
          have hrest : ∀ y ∈ queue, y ∈ vertices :=
            fun y hy => hqueue y (List.mem_cons_of_mem _ hy)
          by_cases hfull : limit ≤ taken.length
          · rw [walk, if_pos hfull, Nat.sub_eq_zero_of_le hfull]
            simp [left]
          · obtain ⟨r, hr⟩ : ∃ r, limit - taken.length = r + 1 :=
              ⟨limit - taken.length - 1, by omega⟩
            have hskip : ∀ t : List (β × List α),
                left (x :: queue) t (r + 1) = left queue t (r + 1) :=
              fun _ => rfl
            rw [walk, if_neg hfull, trace]
            by_cases hseen : x ∈ seen
            · have hpop := cost_pop get next vertices seen queue x
              rw [if_pos hseen, if_pos hseen, ih hrest (by omega) htaken, hr,
                hskip]
            · rw [if_neg hseen, if_neg hseen]
              cases hget : get x with
              | none =>
                  have hpop := cost_pop get next vertices seen queue x
                  have hmark := cost_seen get next vertices seen queue x
                  dsimp only
                  rw [ih hrest (by omega) htaken, hr, hskip]
              | some b =>
                  have htake := @cost_take α β _ get next vertices seen queue x b hx
                    hseen hget
                  have hnext : ∀ y ∈ queue ++ (next b).filter (· ∉ x :: seen),
                      y ∈ vertices := by
                    intro y hy
                    rcases List.mem_append.mp hy with hy | hy
                    · exact hrest y hy
                    · refine hsucc x hx y ?_
                      simpa [successors, hget] using List.mem_of_mem_filter hy
                  have hone : limit - (taken ++ [b]).length = r := by
                    rw [List.length_append, List.length_singleton]
                    omega
                  dsimp only
                  rw [ih hnext (by omega)
                    (by rw [List.length_append, List.length_singleton]; omega),
                    hone, hr, left_cons]
                  simp

variable {fuel : ℕ} {queue seen : List α}

theorem left_ne_nil {r : ℕ} (h : r < (trace get next fuel queue seen).length) :
    left queue (trace get next fuel queue seen) r ≠ [] := by
  induction fuel generalizing queue seen r with
  | zero => simp [trace] at h
  | succ n ih =>
      cases queue with
      | nil => simp [trace] at h
      | cons x queue =>
          cases r with
          | zero => simp [left]
          | succ r =>
              rw [trace] at h ⊢
              by_cases hseen : x ∈ seen
              · rw [if_pos hseen] at h ⊢
                exact ih h
              · rw [if_neg hseen] at h ⊢
                cases hget : get x with
                | none =>
                    simp only [hget] at h ⊢
                    exact ih h
                | some b =>
                    simp only [hget, List.length_cons,
                      Nat.add_lt_add_iff_right] at h ⊢
                    rw [left_cons]
                    exact ih h

theorem found_of_mem_trace {e : β × List α}
    (h : e ∈ trace get next fuel queue seen) :
    ∃ x, get x = some e.1 ∧ x ∉ seen ∧
      ∃ q ∈ queue, Reaches (successors get next) q x := by
  induction fuel generalizing queue seen with
  | zero => simp [trace] at h
  | succ n ih =>
      cases queue with
      | nil => simp [trace] at h
      | cons x queue =>
          rw [trace] at h
          by_cases hseen : x ∈ seen
          · rw [if_pos hseen] at h
            obtain ⟨y, hy, hnew, q, hq, hreach⟩ := ih h
            exact ⟨y, hy, hnew, q, List.mem_cons_of_mem _ hq, hreach⟩
          · rw [if_neg hseen] at h
            cases hget : get x with
            | none =>
                simp only [hget] at h
                obtain ⟨y, hy, hnew, q, hq, hreach⟩ := ih h
                exact ⟨y, hy, fun hin => hnew (List.mem_cons_of_mem _ hin), q,
                  List.mem_cons_of_mem _ hq, hreach⟩
            | some b =>
                simp only [hget] at h
                rcases List.mem_cons.mp h with rfl | h
                · exact ⟨x, hget, hseen, x, List.mem_cons_self, Reaches.refl _ _⟩
                · obtain ⟨y, hy, hnew, q, hq, hreach⟩ := ih h
                  refine ⟨y, hy, fun hin => hnew (List.mem_cons_of_mem _ hin), ?_⟩
                  rcases List.mem_append.mp hq with hq | hq
                  · exact ⟨q, List.mem_cons_of_mem _ hq, hreach⟩
                  · refine ⟨x, List.mem_cons_self, Reaches.trans (.single ?_) hreach⟩
                    simpa [successors, hget] using List.mem_of_mem_filter hq

/-- Nothing is taken twice, when what is found tells where. -/
theorem nodup_trace {key : β → α} (hkey : ∀ x b, get x = some b → key b = x)
    (fuel : ℕ) (queue seen : List α) :
    ((trace get next fuel queue seen).map fun e => key e.1).Nodup := by
  induction fuel generalizing queue seen with
  | zero => simp [trace]
  | succ n ih =>
      cases queue with
      | nil => simp [trace]
      | cons x queue =>
          rw [trace]
          by_cases hseen : x ∈ seen
          · rw [if_pos hseen]
            exact ih _ _
          · rw [if_neg hseen]
            cases hget : get x with
            | none => exact ih _ _
            | some b =>
                simp only [List.map_cons, List.nodup_cons]
                refine ⟨?_, ih _ _⟩
                intro hmem
                obtain ⟨e, he, hkeys⟩ := List.mem_map.mp hmem
                obtain ⟨y, hy, hnew, -⟩ := found_of_mem_trace he
                rw [hkey y _ hy, hkey x b hget] at hkeys
                exact hnew (by simp [hkeys])

theorem mem_trace_of_reaches
    (hsucc : ∀ x ∈ vertices, ∀ y ∈ successors get next x, y ∈ vertices)
    (hqueue : ∀ x ∈ queue, x ∈ vertices)
    (hfuel : cost get next vertices seen queue < fuel)
    (hclosed : ∀ x ∈ seen, ∀ y ∈ successors get next x, y ∈ seen ∨ y ∈ queue)
    {x y : α} (hx : x ∈ seen ∨ x ∈ queue)
    (h : Reaches (successors get next) x y) {b : β} (hb : get y = some b) :
    y ∈ seen ∨ b ∈ (trace get next fuel queue seen).map Prod.fst := by
  induction fuel generalizing queue seen with
  | zero => exact absurd hfuel (Nat.not_lt_zero _)
  | succ n ih =>
      cases queue with
      | nil =>
          refine Or.inl (h.mem_of_closed (P := (· ∈ seen)) ?_ (by simpa using hx))
          intro z hz w hw
          simpa using hclosed z hz w hw
      | cons z queue =>
          have hz := hqueue z List.mem_cons_self
          have hrest : ∀ y ∈ queue, y ∈ vertices :=
            fun y hy => hqueue y (List.mem_cons_of_mem _ hy)
          have hpop := cost_pop get next vertices seen queue z
          rw [trace]
          by_cases hseen : z ∈ seen
          · rw [if_pos hseen]
            have hin : ∀ w, w ∈ seen ∨ w ∈ z :: queue → w ∈ seen ∨ w ∈ queue := by
              intro w hw
              rcases hw with hw | hw
              · exact Or.inl hw
              · rcases List.mem_cons.mp hw with rfl | hw
                · exact Or.inl hseen
                · exact Or.inr hw
            exact ih hrest (by omega)
              (fun w hw v hv => hin v (hclosed w hw v hv)) (hin x hx)
          · rw [if_neg hseen]
            have hmoved : ∀ w, w ∈ seen ∨ w ∈ z :: queue →
                w ∈ z :: seen ∨ w ∈ queue := by
              intro w hw
              rcases hw with hw | hw
              · exact Or.inl (List.mem_cons_of_mem _ hw)
              · rcases List.mem_cons.mp hw with rfl | hw
                · exact Or.inl List.mem_cons_self
                · exact Or.inr hw
            cases hget : get z with
            | none =>
                have hmark := cost_seen get next vertices seen queue z
                have hstep := @ih queue (z :: seen) hrest (by omega) ?_
                  (hmoved x hx)
                · refine hstep.imp_left fun hy => ?_
                  rcases List.mem_cons.mp hy with rfl | hy
                  · rw [hget] at hb
                    contradiction
                  · exact hy
                · intro w hw v hv
                  rcases List.mem_cons.mp hw with rfl | hw
                  · simp [successors, hget] at hv
                  · exact hmoved v (hclosed w hw v hv)
            | some c =>
                have htake := @cost_take α β _ get next vertices seen queue z c hz
                  hseen hget
                have hstep := @ih (queue ++ (next c).filter (· ∉ z :: seen))
                  (z :: seen) ?_
                  (by omega) ?_ ((hmoved x hx).imp_right
                    (List.mem_append_left _))
                · simp only [List.map_cons, List.mem_cons] at hstep ⊢
                  rcases hstep with (rfl | hy) | hmem
                  · rw [hget] at hb
                    exact Or.inr (Or.inl (Option.some.inj hb).symm)
                  · exact Or.inl hy
                  · exact Or.inr (Or.inr hmem)
                · intro w hw
                  rcases List.mem_append.mp hw with hw | hw
                  · exact hrest w hw
                  · refine hsucc z hz w ?_
                    simpa [successors, hget] using List.mem_of_mem_filter hw
                · intro w hw v hv
                  rcases List.mem_cons.mp hw with rfl | hw
                  · by_cases hv' : v ∈ w :: seen
                    · exact Or.inl hv'
                    · have hnext : v ∈ next c := by
                        simpa [successors, hget] using hv
                      exact Or.inr (List.mem_append_right _
                        (List.mem_filter.mpr ⟨hnext, by simpa using hv'⟩))
                  · exact (hmoved v (hclosed w hw v hv)).imp_right
                      (List.mem_append_left _)

end Facts

end BreadthFirst
