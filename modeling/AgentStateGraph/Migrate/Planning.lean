import Mathlib

/-!
# Planning migrations

A registry plans from a version to another by going, each time, to the lowest
version that a migration accepting the current one produces.  The plan is a
chain that no migration extends.  It ends at the highest version that a chain
can reach unless some chain leaves it for a version above its end.
-/

namespace AgentStateGraph

/-- A single named migration step.  `fromVersion` is what the stored version has
to satisfy. -/
structure Migration (V : Type) where
  name : String
  fromVersion : V → Bool
  toVersion : V

/-- Migrations, ordered by `toVersion` and then by registration. -/
structure Registry (V : Type) where
  items : List (Migration V)

namespace Registry

variable {V : Type} [LinearOrder V]

def empty : Registry V := ⟨[]⟩

def register (r : Registry V) (m : Migration V) : Registry V :=
  ⟨(r.items ++ [m]).insertionSort fun a b => a.toVersion ≤ b.toVersion⟩

/-- A registry with some migrations, registered in this order. -/
def ofList (ms : List (Migration V)) : Registry V := ms.foldl register empty

/-- The next step of a plan is the first migration of these. -/
def advances (target cursor : V) (m : Migration V) : Bool :=
  decide (cursor < m.toVersion) && decide (m.toVersion ≤ target) &&
    m.fromVersion cursor

/-- The loop of `plan`. -/
def planLoop (r : Registry V) (target : V) : ℕ → V → List (Migration V)
  | 0, _ => []
  | fuel + 1, cursor =>
      if target ≤ cursor then []
      else
        match r.items.find? (advances target cursor) with
        | some m => m :: r.planLoop target fuel m.toVersion
        | none => []

/-- The plan from one version to another.  Each step goes to the version of
another migration, so there are no more steps than migrations. -/
def plan (r : Registry V) (current target : V) : List (Migration V) :=
  r.planLoop target (r.items.length + 1) current

/-! ## Chains -/

/-- Each migration accepts the version before it and goes to a higher one, not
above the target. -/
inductive Chain (r : Registry V) (target : V) : V → List (Migration V) → Prop
  | nil (v : V) : Chain r target v []
  | cons {v : V} {m : Migration V} {ms : List (Migration V)}
      (hm : m ∈ r.items) (hstep : advances target v m = true)
      (hrest : Chain r target m.toVersion ms) : Chain r target v (m :: ms)

/-- The version a chain ends at. -/
def endOf : V → List (Migration V) → V
  | v, [] => v
  | _, m :: ms => endOf m.toVersion ms

/-- A chain from `current` ends at the version. -/
def Reachable (r : Registry V) (current target v : V) : Prop :=
  ∃ ms, Chain r target current ms ∧ endOf current ms = v

variable {r : Registry V} {current target v : V}

variable {m n : Migration V} {ms : List (Migration V)}

theorem advances_iff : advances target v m = true ↔
    v < m.toVersion ∧ m.toVersion ≤ target ∧ m.fromVersion v = true := by
  simp [advances, and_assoc]

theorem Chain.le_endOf (h : Chain r target v ms) : v ≤ endOf v ms := by
  induction h with
  | nil => exact le_rfl
  | cons hm hstep hrest ih => exact (advances_iff.mp hstep).1.le.trans ih

theorem Chain.append {ns : List (Migration V)} (h : Chain r target v ms)
    (h' : Chain r target (endOf v ms) ns) : Chain r target v (ms ++ ns) := by
  induction h with
  | nil => exact h'
  | cons hm hstep hrest ih => exact .cons hm hstep (ih h')

omit [LinearOrder V] in
theorem endOf_append (v : V) (ms ns : List (Migration V)) :
    endOf v (ms ++ ns) = endOf (endOf v ms) ns := by
  induction ms generalizing v with
  | nil => rfl
  | cons m ms ih => exact ih m.toVersion

theorem Reachable.advance (h : r.Reachable current target v) (hm : m ∈ r.items)
    (hstep : advances target v m = true) :
    r.Reachable current target m.toVersion := by
  obtain ⟨ms, hchain, rfl⟩ := h
  refine ⟨ms ++ [m], hchain.append (.cons hm hstep (.nil _)), ?_⟩
  rw [endOf_append]
  rfl

theorem Chain.exists_crossing {w : V} (h : Chain r target v ms) (hv : v ≤ w)
    (hend : w < endOf v ms) :
    ∃ u, (∃ ns, Chain r target v ns ∧ endOf v ns = u) ∧ u ≤ w ∧
      ∃ m ∈ r.items, advances target u m = true ∧ w < m.toVersion := by
  induction h with
  | nil => exact absurd hend (not_lt.mpr hv)
  | @cons v m ms hm hstep hrest ih =>
      by_cases hw : w < m.toVersion
      · exact ⟨v, ⟨[], .nil v, rfl⟩, hv, m, hm, hstep, hw⟩
      · obtain ⟨u, ⟨ns, hns, hu⟩, hrest⟩ := ih (not_lt.mp hw) hend
        exact ⟨u, ⟨m :: ns, .cons hm hstep hns, hu⟩, hrest⟩

/-! ## The plan -/

theorem planLoop_chain (r : Registry V) (target : V) (fuel : ℕ) (v : V) :
    Chain r target v (r.planLoop target fuel v) := by
  induction fuel generalizing v with
  | zero => exact .nil v
  | succ fuel ih =>
      unfold planLoop
      split
      next => exact .nil v
      next =>
        split
        next m hfind =>
          exact .cons (List.mem_of_find?_eq_some hfind)
            (List.find?_some hfind) (ih m.toVersion)
        next => exact .nil v

theorem planLoop_stuck {fuel : ℕ}
    (hfuel : (r.items.filter fun m => v < m.toVersion).length < fuel) :
    ∀ m ∈ r.items,
      ¬advances target (endOf v (r.planLoop target fuel v)) m = true := by
  induction fuel generalizing v with
  | zero => omega
  | succ fuel ih =>
      unfold planLoop
      split
      next hdone =>
        intro m _ hstep
        obtain ⟨hlt, hle, -⟩ := advances_iff.mp hstep
        exact absurd (hlt.trans_le hle) (not_lt.mpr hdone)
      next =>
        split
        next m hfind =>
          have hstep := advances_iff.mp (List.find?_some hfind)
          refine ih (lt_of_lt_of_le ?_ (Nat.lt_succ_iff.mp hfuel))
          have hsub : (r.items.filter fun n => m.toVersion < n.toVersion) =
              (r.items.filter fun n => v < n.toVersion).filter
                fun n => m.toVersion < n.toVersion := by
            rw [List.filter_filter]
            refine List.filter_congr fun n _ => ?_
            have himp : m.toVersion < n.toVersion → v < n.toVersion :=
              hstep.1.trans
            simpa using himp
          rw [hsub]
          refine List.length_filter_lt_length_iff_exists.mpr ⟨m, ?_, by simp⟩
          exact List.mem_filter.mpr
            ⟨List.mem_of_find?_eq_some hfind, by simpa using hstep.1⟩
        next hnone =>
          intro m hm hstep
          exact List.find?_eq_none.mp hnone m hm hstep

theorem mem_register {r : Registry V} :
    n ∈ (r.register m).items ↔ n ∈ r.items ∨ n = m := by
  simp [register, List.mem_insertionSort]

theorem mem_ofList : m ∈ (ofList ms).items ↔ m ∈ ms := by
  have hfold : ∀ (ns : List (Migration V)) (r : Registry V),
      m ∈ (ns.foldl register r).items ↔ m ∈ r.items ∨ m ∈ ns := by
    intro ns
    induction ns with
    | nil => simp
    | cons n ns ih =>
        intro r
        rw [List.foldl_cons, ih, mem_register, List.mem_cons, or_assoc]
  rw [ofList, hfold]
  simp [empty]

theorem pairwise_ofList (ms : List (Migration V)) :
    (ofList ms).items.Pairwise fun a b => a.toVersion ≤ b.toVersion := by
  have hfold : ∀ (ns : List (Migration V)) (r : Registry V),
      r.items.Pairwise (fun a b => a.toVersion ≤ b.toVersion) →
      (ns.foldl register r).items.Pairwise
        fun a b => a.toVersion ≤ b.toVersion := by
    intro ns
    induction ns with
    | nil => exact fun r hr => hr
    | cons n ns ih =>
        intro r _
        have : Std.Total fun a b : Migration V => a.toVersion ≤ b.toVersion :=
          ⟨fun a b => le_total a.toVersion b.toVersion⟩
        have : IsTrans (Migration V) fun a b => a.toVersion ≤ b.toVersion :=
          ⟨fun a b c => le_trans⟩
        exact ih (r.register n) (List.pairwise_insertionSort _ _)
  exact hfold ms empty List.Pairwise.nil

theorem le_of_find?
    (hsorted : r.items.Pairwise fun a b => a.toVersion ≤ b.toVersion)
    (hfind : r.items.find? (advances target v) = some m) (hn : n ∈ r.items)
    (hstep : advances target v n = true) : m.toVersion ≤ n.toVersion := by
  obtain ⟨-, before, after, hitems, hbefore⟩ :=
    List.find?_eq_some_iff_append.mp hfind
  rw [hitems, List.mem_append, List.mem_cons] at hn
  rw [hitems] at hsorted
  obtain hn | rfl | hn := hn
  · simpa [hstep] using hbefore n hn
  · exact le_rfl
  · exact List.rel_of_pairwise_cons (List.pairwise_append.mp hsorted).2.1 hn

theorem planLoop_lowest
    (hsorted : r.items.Pairwise fun a b => a.toVersion ≤ b.toVersion) {fuel : ℕ}
    {ns : List (Migration V)} (hplan : r.planLoop target fuel v = ms ++ m :: ns)
    (hn : n ∈ r.items) (hstep : advances target (endOf v ms) n = true) :
    m.toVersion ≤ n.toVersion := by
  induction fuel generalizing v ms with
  | zero => simp [planLoop] at hplan
  | succ fuel ih =>
      unfold planLoop at hplan
      split at hplan
      next => simp at hplan
      next =>
        split at hplan
        next first hfind =>
          cases ms with
          | nil =>
              obtain ⟨rfl, -⟩ := List.cons.inj hplan
              exact le_of_find? hsorted hfind hn hstep
          | cons first' ms =>
              obtain ⟨rfl, hrest⟩ := List.cons.inj hplan
              exact ih hrest hstep
        next => simp at hplan

/-- A plan is a chain whose every step is the lowest possible.  No migration
extends it, and it ends at the highest version that a chain can reach if and
only if every migration that goes past its end accepts no version that a chain
reaches up to there. -/
theorem plan_greedy (ms : List (Migration V)) (current target : V) :
    let r := ofList ms
    let reached := endOf current (r.plan current target)
    Chain r target current (r.plan current target) ∧
      (∀ before after m, r.plan current target = before ++ m :: after →
        ∀ n ∈ r.items, advances target (endOf current before) n = true →
          m.toVersion ≤ n.toVersion) ∧
      (∀ n ∈ r.items, ¬advances target reached n = true) ∧
      ((∀ w, r.Reachable current target w → w ≤ reached) ↔
        ∀ u, r.Reachable current target u → u ≤ reached →
          ∀ n ∈ r.items, advances target u n = true →
            n.toVersion ≤ reached) := by
  intro r reached
  have hchain := planLoop_chain r target (r.items.length + 1) current
  refine ⟨hchain, ?_, ?_, ?_, ?_⟩
  · intro before after m hplan n hn hstep
    exact planLoop_lowest (pairwise_ofList ms) hplan hn hstep
  · exact planLoop_stuck (Nat.lt_succ_of_le (List.length_filter_le _ _))
  · intro hhighest u hu _ n hn hstep
    exact hhighest _ (hu.advance hn hstep)
  · intro hnone w hw
    by_contra hover
    obtain ⟨ns, hns, rfl⟩ := hw
    obtain ⟨u, hu, hle, n, hn, hstep, hpast⟩ :=
      hns.exists_crossing hchain.le_endOf (not_le.mp hover)
    exact absurd (hnone u hu hle n hn hstep) (not_le.mpr hpast)

/-- Two migrations leave version 3, and the plan to 5 takes the one to 4, which
nothing leaves. -/
theorem plan_stops_at_dead_end :
    let a : Migration ℕ := ⟨"a", fun v => v == 3, 4⟩
    let b : Migration ℕ := ⟨"b", fun v => v == 3, 5⟩
    let r := ofList [b, a]
    (r.plan 3 5).map (·.name) = ["a"] ∧ endOf 3 (r.plan 3 5) = 4 ∧
      r.Reachable 3 5 5 := by
  refine ⟨by decide, by decide, [⟨"b", fun v => v == 3, 5⟩], ?_, rfl⟩
  exact .cons (mem_ofList.mpr List.mem_cons_self) (by decide) (.nil 5)

end Registry

end AgentStateGraph
