import AgentStateGraph.Core.MergeReference
import AgentStateGraph.Tree.Lookup

/-!
# What a clean merge leaves alone

At one place a merge without conflicts takes the other side where one side is
as the base, and what both sides have where they agree.  A place is a path
below an id, through lists as well as maps.
-/

namespace AgentStateGraph

variable {Id : Type} [Digest Id]

/-- The id at a path below an id. -/
def lookupAt (view : ObjectStore Id) (id : Option Id)
    (path : List PathComponent) : Option Id :=
  if path = [] then id
  else (id.bind view.get).bind fun o => lookup view o path

@[simp] theorem lookupAt_nil (view : ObjectStore Id) (id : Option Id) :
    lookupAt view id [] = id := rfl

theorem lookupAt_none (view : ObjectStore Id) (path : List PathComponent) :
    lookupAt view none path = none := by
  simp [lookupAt]

theorem idAt_eq_lookupAt (view : ObjectStore Id) (root : Id)
    (path : List PathComponent) :
    idAt view root path = lookupAt view (some root) path := by
  by_cases hpath : path = []
  · simp [idAt, lookupAt, hpath]
  · simp only [idAt, lookupAt, List.isEmpty_iff, hpath, if_false,
      Option.bind_some]
    cases view.get root <;> rfl

theorem lookup_cons (view : ObjectStore Id) (o : Object Id)
    (c : PathComponent) (path : List PathComponent) :
    lookup view o (c :: path) = lookupAt view (childIdAt o c) path := by
  cases path with
  | nil => rfl
  | cons d path =>
      rw [lookup_cons_cons]
      simp only [lookupAt, reduceCtorEq, if_false]
      cases childIdAt o c with
      | none => rfl
      | some id =>
          simp only [Option.bind_some]
          cases view.get id <;> rfl

theorem lookupAt_of_get {view : ObjectStore Id} {id : Id} {o : Object Id}
    (h : view.get id = some o) (c : PathComponent)
    (path : List PathComponent) :
    lookupAt view (some id) (c :: path) =
      lookupAt view (childIdAt o c) path := by
  rw [← lookup_cons]
  simp [lookupAt, h]

theorem lookupAt_append (view : ObjectStore Id) (id : Option Id)
    (path rest : List PathComponent) :
    lookupAt view id (path ++ rest) =
      lookupAt view (lookupAt view id path) rest := by
  induction path generalizing id with
  | nil => rfl
  | cons c path ih =>
      cases id with
      | none => simp only [lookupAt_none]
      | some x =>
          cases hx : view.get x with
          | none => simp [lookupAt, hx]
          | some o =>
              rw [List.cons_append, lookupAt_of_get hx, lookupAt_of_get hx, ih]

theorem lookupAt_of_le {store view : ObjectStore Id} (hle : store ≤ view)
    {id : Option Id} {path : List PathComponent} {x : Id}
    (h : lookupAt store id path = some x) : lookupAt view id path = some x := by
  induction path generalizing id with
  | nil => exact h
  | cons c path ih =>
      cases id with
      | none => simp [lookupAt_none] at h
      | some y =>
          cases hy : store.get y with
          | none => simp [lookupAt, hy] at h
          | some o =>
              rw [lookupAt_of_get hy] at h
              rw [lookupAt_of_get (hle y o hy)]
              exact ih h

/-! ## One place -/

/-- What a clean merge may make of three ids. -/
structure Settles (base ours theirs result : Option Id) : Prop where
  takesOurs : theirs = base → result = ours
  takesTheirs : ours = base → result = theirs
  takesBoth : ours = theirs → result = ours

section Settles

omit [Digest Id]

variable {base ours theirs result : Option Id}

theorem settles_agreed (base ours : Option Id) :
    Settles base ours ours ours :=
  ⟨fun _ => rfl, fun _ => rfl, fun _ => rfl⟩

theorem settles_theirs (ours theirs : Option Id) :
    Settles ours ours theirs theirs :=
  ⟨fun h => h, fun _ => rfl, fun h => h.symm⟩

theorem settles_ours (ours theirs : Option Id) :
    Settles theirs ours theirs ours :=
  ⟨fun _ => rfl, fun h => h, fun _ => rfl⟩

/-- Where all three differ, nothing is asked of the result. -/
theorem settles_of_ne (hot : ours ≠ theirs) (hbo : base ≠ ours)
    (hbt : base ≠ theirs) : Settles base ours theirs result :=
  ⟨fun h => absurd h.symm hbt, fun h => absurd h.symm hbo,
    fun h => absurd h hot⟩

end Settles

/-! ## A fast-forward -/

theorem created_of_fastForward {store : ObjectStore Id} {base ours theirs id : Id}
    {created : List (Object Id)}
    (h : tryThreeWayMergeCollect store base ours theirs =
      .ok (.fastForward id, created)) : created = [] := by
  unfold tryThreeWayMergeCollect at h
  simp only at h
  split at h
  next => contradiction
  next =>
    simp only [Except.ok.injEq, Prod.mk.injEq] at h
    obtain ⟨hresult, rfl⟩ := h
    unfold threeWayMergeCollect at hresult ⊢
    split
    · rfl
    split
    · rfl
    split
    · rfl
    next hbo hbt hot =>
      simp only [if_neg hbo, if_neg hbt, if_neg hot] at hresult
      split at hresult
      next hb => simp [hb, MergeLog.asked]
      next ho => simp [ho, MergeLog.asked]
      next ht => simp [ht, MergeLog.asked]
      next =>
        simp only at hresult
        split at hresult <;> contradiction

end AgentStateGraph
