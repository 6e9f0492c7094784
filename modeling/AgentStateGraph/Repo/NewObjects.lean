import AgentStateGraph.Core.ContentKey
import AgentStateGraph.Repo.Integrity
import AgentStateGraph.Repo.Speculation

/-!
# The integrity gate for changes

The walk over what a root adds to a base skips a subtree that the base has at
the same place.  Over a whole base nothing is skipped that could be missing, so
the walk finds a missing object exactly when the walk over the whole tree does.
-/

namespace AgentStateGraph

open Worklist

variable {Id : Type} [Digest Id] {objects : ObjectStore Id}

/-! ## One step of the walk -/

/-- What the walk pushes for an object: its children, those of a map each with
what the base has under the key. -/
def newEntries (objects : ObjectStore Id) (base : Option Id) :
    Object Id → List (Id × Option Id)
  | .atom _ => []
  | .node (.map entries) =>
      let baseEntries : BTreeMap String Id := match base.bind objects.get with
        | some (.node (.map m)) => m
        | _ => ∅
      (entries.toList.map fun e => (e.2, baseEntries[e.1]?)).reverse
  | .node (.list items) | .node (.set items) =>
      (items.map fun c => (c, none)).reverse

section

variable {fuel : ℕ} {id : Id} {base : Option Id} {stack : List (Id × Option Id)}
  {seen : List Id} {o : Object Id}

theorem missingNewLoop_found (hskip : ¬(some id = base ∨ id ∈ seen))
    (hget : objects.get id = some o) :
    missingNewLoop objects (fuel + 1) ((id, base) :: stack) seen =
      missingNewLoop objects fuel (newEntries objects base o ++ stack)
        (id :: seen) := by
  rw [missingNewLoop, if_neg hskip, hget]
  rcases o with a | ⟨entries⟩ | ⟨items⟩ | ⟨items⟩ <;> rfl

theorem map_fst_newEntries (objects : ObjectStore Id) (base : Option Id)
    (o : Object Id) :
    (newEntries objects base o).map Prod.fst = o.childIds.reverse := by
  rcases o with a | ⟨entries⟩ | ⟨items⟩ | ⟨items⟩ <;>
    simp [newEntries, Object.childIds, List.map_reverse, Function.comp_def]

/-- Below a whole base there are only whole ones. -/
theorem complete_of_mem_newEntries
    (hbase : ∀ b, base = some b → objects.Complete b) {e : Id × Option Id}
    (he : e ∈ newEntries objects base o) {b : Id} (hb : e.2 = some b) :
    objects.Complete b := by
  rcases o with a | ⟨entries⟩ | ⟨items⟩ | ⟨items⟩
  · exact absurd he List.not_mem_nil
  · rw [newEntries, List.mem_reverse, List.mem_map] at he
    obtain ⟨entry, -, rfl⟩ := he
    simp only at hb
    split at hb
    next m hm =>
      obtain ⟨id, rfl, hget⟩ := Option.bind_eq_some_iff.mp hm
      exact (hbase id rfl).child hget (Object.mem_childIds_of_getElem? hb)
    next => simp at hb
  · rw [newEntries, List.mem_reverse, List.mem_map] at he
    obtain ⟨c, -, rfl⟩ := he
    contradiction
  · rw [newEntries, List.mem_reverse, List.mem_map] at he
    obtain ⟨c, -, rfl⟩ := he
    contradiction

/-! ## The walk -/

theorem missingNewLoop_eq_some {m : Id}
    (h : missingNewLoop objects fuel stack seen = some m) :
    objects.get m = none ∧ ∃ e ∈ stack, Reaches objects.children e.1 m := by
  induction fuel generalizing stack seen with
  | zero => simp [missingNewLoop] at h
  | succ fuel ih =>
      rcases stack with _ | ⟨⟨id, base⟩, stack⟩
      · simp [missingNewLoop] at h
      · by_cases hskip : some id = base ∨ id ∈ seen
        · rw [missingNewLoop, if_pos hskip] at h
          obtain ⟨hm, e, he, hreach⟩ := ih h
          exact ⟨hm, e, List.mem_cons_of_mem _ he, hreach⟩
        · cases hget : objects.get id with
          | none =>
              rw [missingNewLoop, if_neg hskip, hget, Option.some.injEq] at h
              rw [← h]
              exact ⟨hget, _, List.mem_cons_self, Reaches.refl _ id⟩
          | some o =>
              rw [missingNewLoop_found hskip hget] at h
              obtain ⟨hm, e, he, hreach⟩ := ih h
              refine ⟨hm, ?_⟩
              rcases List.mem_append.mp he with he | he
              · have hchild : e.1 ∈ objects.children id := by
                  rw [ObjectStore.children_of_get hget, ← List.mem_reverse,
                    ← map_fst_newEntries objects base]
                  exact List.mem_map_of_mem he
                exact ⟨_, List.mem_cons_self,
                  (Reaches.single hchild).trans hreach⟩
              · exact ⟨e, List.mem_cons_of_mem _ he, hreach⟩

/-- What the walk keeps: the bases on the stack are whole, and a child of a
seen object is seen, waiting or whole. -/
structure NewInv (objects : ObjectStore Id) (stack : List (Id × Option Id))
    (seen : List Id) : Prop where
  bases : ∀ e ∈ stack, ∀ b, e.2 = some b → objects.Complete b
  stored : ∀ x ∈ seen, (objects.get x).isSome = true
  closed : ∀ x ∈ seen, ∀ y ∈ objects.children x,
    y ∈ seen ∨ y ∈ stack.map Prod.fst ∨ objects.Complete y

theorem NewInv.skip (h : NewInv objects ((id, base) :: stack) seen)
    (hskip : some id = base ∨ id ∈ seen) : NewInv objects stack seen where
  bases e he := h.bases e (List.mem_cons_of_mem _ he)
  stored := h.stored
  closed x hx y hy := by
    rcases h.closed x hx y hy with hy | hy | hy
    · exact Or.inl hy
    · rcases List.mem_cons.mp hy with rfl | hy
      · rcases hskip with hbase | hmem
        · exact Or.inr (Or.inr
            (h.bases _ List.mem_cons_self _ hbase.symm))
        · exact Or.inl hmem
      · exact Or.inr (Or.inl hy)
    · exact Or.inr (Or.inr hy)

theorem NewInv.visit (h : NewInv objects ((id, base) :: stack) seen)
    (hget : objects.get id = some o) :
    NewInv objects (newEntries objects base o ++ stack) (id :: seen) where
  bases e he b hb := by
    rcases List.mem_append.mp he with he | he
    · exact complete_of_mem_newEntries (h.bases _ List.mem_cons_self) he hb
    · exact h.bases e (List.mem_cons_of_mem _ he) b hb
  stored x hx := by
    rcases List.mem_cons.mp hx with rfl | hx
    · rw [hget]
      rfl
    · exact h.stored x hx
  closed x hx y hy := by
    rw [List.map_append, map_fst_newEntries]
    rcases List.mem_cons.mp hx with rfl | hx
    · rw [ObjectStore.children_of_get hget] at hy
      exact Or.inr (Or.inl (List.mem_append_left _ (List.mem_reverse.mpr hy)))
    · rcases h.closed x hx y hy with hy | hy | hy
      · exact Or.inl (List.mem_cons_of_mem _ hy)
      · rcases List.mem_cons.mp hy with rfl | hy
        · exact Or.inl List.mem_cons_self
        · exact Or.inr (Or.inl (List.mem_append_right _ hy))
      · exact Or.inr (Or.inr hy)

/-- A walk with fuel enough that reports nothing has seen, or skipped, only
whole trees. -/
theorem missingNewLoop_eq_none {vertices : Finset Id}
    (hvertices : ∀ x, (objects.get x).isSome = true → x ∈ vertices)
    (h : missingNewLoop objects fuel stack seen = none)
    (hfuel : exploreCost objects.children vertices seen
      (stack.map Prod.fst) < fuel) (hinv : NewInv objects stack seen) :
    ∀ x, x ∈ seen ∨ x ∈ stack.map Prod.fst → objects.Complete x := by
  induction fuel generalizing stack seen with
  | zero => omega
  | succ fuel ih =>
      rcases stack with _ | ⟨⟨id, base⟩, stack⟩
      · intro x hx y hreach
        have hclosed : ∀ z, z ∈ seen ∨ objects.Complete z →
            ∀ c ∈ objects.children z, c ∈ seen ∨ objects.Complete c := by
          rintro z (hz | hz) c hc
          · rcases hinv.closed z hz c hc with hc | hc | hc
            · exact Or.inl hc
            · exact absurd hc List.not_mem_nil
            · exact Or.inr hc
          · exact Or.inr fun w hw => hz w ((Reaches.single hc).trans hw)
        have hy := hreach.mem_of_closed hclosed
          (Or.inl (hx.resolve_right List.not_mem_nil))
        rcases hy with hy | hy
        · exact hinv.stored y hy
        · exact hy y (Reaches.refl _ y)
      · by_cases hskip : some id = base ∨ id ∈ seen
        · rw [missingNewLoop, if_pos hskip] at h
          have hcost := exploreCost_pop objects.children vertices seen
            (stack.map Prod.fst) id
          have hpops : exploreCost objects.children vertices seen
              (id :: stack.map Prod.fst) < fuel + 1 := hfuel
          have hrest := ih h (by omega) (hinv.skip hskip)
          rintro x (hx | hx)
          · exact hrest x (Or.inl hx)
          · rcases List.mem_cons.mp hx with rfl | hx
            · rcases hskip with hbase | hmem
              · exact hinv.bases _ List.mem_cons_self _ hbase.symm
              · exact hrest _ (Or.inl hmem)
            · exact hrest x (Or.inr hx)
        · cases hget : objects.get id with
          | none =>
              rw [missingNewLoop, if_neg hskip, hget] at h
              contradiction
          | some o =>
              rw [missingNewLoop_found hskip hget] at h
              have hstored : (objects.get id).isSome = true := by
                rw [hget]
                rfl
              have hcost := exploreCost_pushAll objects.children
                (stack.map Prod.fst) (hvertices id hstored)
                (fun hmem => hskip (Or.inr hmem))
              rw [ObjectStore.children_of_get hget,
                ← map_fst_newEntries objects base,
                ← List.map_append] at hcost
              have hpops : exploreCost objects.children vertices seen
                  (id :: stack.map Prod.fst) < fuel + 1 := hfuel
              have hrest := ih h (by omega) (hinv.visit hget)
              rintro x (hx | hx)
              · exact hrest x (Or.inl (List.mem_cons_of_mem _ hx))
              · rcases List.mem_cons.mp hx with rfl | hx
                · exact hrest _ (Or.inl List.mem_cons_self)
                · refine hrest x (Or.inr ?_)
                  rw [List.map_append]
                  exact List.mem_append_right _ hx

end

/-- Over a whole base, the gate for changes passes a root exactly when its tree
is all there, and so exactly when the full gate does. -/
theorem firstMissingNew_eq_none_iff {base new : Id}
    (hbase : objects.Complete base) :
    (firstMissingNew objects base new = none ↔
        firstMissingReachable objects new = none) ∧
      (firstMissingReachable objects new = none ↔ objects.Complete new) := by
  refine ⟨?_, firstMissingReachable_eq_none_iff⟩
  rw [firstMissingReachable_eq_none_iff]
  constructor
  · intro h
    have hsum := sum_children_le objects
      ((objects.entries.toList.map Prod.fst).toFinset.filter (· ∉ []))
    have hvertices : ∀ x, (objects.get x).isSome = true →
        x ∈ (objects.entries.toList.map Prod.fst).toFinset := by
      intro x hx
      obtain ⟨o, ho⟩ := Option.isSome_iff_exists.mp hx
      exact List.mem_toFinset.mpr (List.mem_map.mpr
        ⟨(x, o), Std.ExtTreeMap.mem_toList_iff_getElem?_eq_some.mpr ho, rfl⟩)
    have hinv : NewInv objects [(new, some base)] [] := by
      refine ⟨?_, fun x hx => absurd hx List.not_mem_nil,
        fun x hx => absurd hx List.not_mem_nil⟩
      intro e he b hb
      rw [List.mem_singleton] at he
      rw [he] at hb
      exact Option.some.inj hb ▸ hbase
    refine missingNewLoop_eq_none hvertices h ?_ hinv new
      (Or.inr List.mem_cons_self)
    simp only [exploreCost, List.map_cons, List.map_nil, List.length_cons,
      List.length_nil, treeFuel]
    omega
  · intro hwhole
    by_contra hne
    obtain ⟨m, hm⟩ := Option.ne_none_iff_exists'.mp hne
    obtain ⟨hnone, e, he, hreach⟩ := missingNewLoop_eq_some hm
    rw [List.mem_singleton] at he
    rw [he] at hreach
    have hstored := hwhole m hreach
    rw [hnone] at hstored
    contradiction

/-! ## A change that points at nothing -/

namespace Torn

open ContentKey

def value : Object ContentKey := Object.string "x"

def base : Object ContentKey := mapOf [("k", value)]

/-- A key beside `k` whose object is not stored. -/
def changed : Object ContentKey :=
  mapOf [("k", value), ("l", Object.string "y")]

def torn : ObjectStore ContentKey :=
  AddressedMap.empty.putAll [value, base, changed]

end Torn

open Torn in
set_option maxRecDepth 16384 in
theorem firstMissingNew_eq_none_iff_torn :
    (firstMissingNew torn base.id changed.id = none ↔
        firstMissingReachable torn changed.id = none) ∧
      (firstMissingReachable torn changed.id = none ↔
        torn.Complete changed.id) := by
  have hbase : torn.Complete base.id := by
    refine ObjectStore.complete_of_children (o := base) (by decide) ?_
    intro c hc
    refine ObjectStore.complete_of_children (o := value) ?_ ?_
    · have hid : c = value.id := by
        have hchildren : base.childIds = [value.id] := by decide
        rw [hchildren] at hc
        exact List.mem_singleton.mp hc
      rw [hid]
      decide
    · intro d hd
      exact absurd hd List.not_mem_nil
  exact firstMissingNew_eq_none_iff hbase

end AgentStateGraph
