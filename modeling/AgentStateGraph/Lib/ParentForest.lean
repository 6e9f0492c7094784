import Mathlib

/-!
# Forests of parent links

Every item has a key, and may name the key of another item as its parent.  The
links need not form a forest: they may lead out of the items or round in a
circle.  `grow` unfolds the items below one, and stops at an item whose key is
on the path already.  From an item without a parent it never stops, and meets
each item below it once.
-/

namespace ParentForest

/-- A tree of items. -/
inductive ItemTree (α : Type) where
  | node (item : α) (children : List (ItemTree α))

namespace ItemTree

variable {α : Type}

def item : ItemTree α → α
  | node x _ => x

def children : ItemTree α → List (ItemTree α)
  | node _ ts => ts

mutual

/-- The subtrees of a tree, itself first. -/
def nodes : ItemTree α → List (ItemTree α)
  | node x ts => node x ts :: nodesAll ts

def nodesAll : List (ItemTree α) → List (ItemTree α)
  | [] => []
  | t :: ts => t.nodes ++ nodesAll ts

end

mutual

/-- The same tree with other items. -/
def map {β : Type} (f : α → β) : ItemTree α → ItemTree β
  | node x ts => node (f x) (mapAll f ts)

def mapAll {β : Type} (f : α → β) : List (ItemTree α) → List (ItemTree β)
  | [] => []
  | t :: ts => t.map f :: mapAll f ts

end

theorem nodesAll_eq (ts : List (ItemTree α)) : nodesAll ts = ts.flatMap nodes := by
  induction ts with
  | nil => rfl
  | cons t ts ih => rw [nodesAll, ih, List.flatMap_cons]

/-- The items of a tree. -/
def items (t : ItemTree α) : List α := t.nodes.map item

theorem items_node (x : α) (ts : List (ItemTree α)) :
    (node x ts).items = x :: ts.flatMap items := by
  simp only [items, nodes, List.map_cons, nodesAll_eq, List.map_flatMap]
  rfl

end ItemTree

/-! ## Lists of answers -/

/-- Answers that tell what they answer. -/
theorem mapM_eq_some {α β : Type} {f : α → Option β} {g : β → α}
    (hg : ∀ x y, f x = some y → g y = x) {xs : List α} {ys : List β}
    (h : xs.mapM f = some ys) : ys.map g = xs ∧ ∀ y ∈ ys, f (g y) = some y := by
  induction xs generalizing ys with
  | nil =>
      rw [List.mapM_nil] at h
      cases h
      simp
  | cons x xs ih =>
      rw [List.mapM_cons] at h
      obtain ⟨y, hy, h⟩ := Option.bind_eq_some_iff.mp h
      obtain ⟨zs, hzs, h⟩ := Option.bind_eq_some_iff.mp h
      cases h
      obtain ⟨hmap, hall⟩ := ih hzs
      refine ⟨by rw [List.map_cons, hg x y hy, hmap], ?_⟩
      intro z hz
      rcases List.mem_cons.mp hz with rfl | hz
      · rw [hg x z hy, hy]
      · exact hall z hz

theorem exists_mapM_eq_some {α β : Type} {f : α → Option β} {xs : List α}
    (h : ∀ x ∈ xs, ∃ y, f x = some y) : ∃ ys, xs.mapM f = some ys := by
  induction xs with
  | nil => exact ⟨[], rfl⟩
  | cons x xs ih =>
      obtain ⟨y, hy⟩ := h x List.mem_cons_self
      obtain ⟨ys, hys⟩ := ih fun z hz => h z (List.mem_cons_of_mem _ hz)
      refine ⟨y :: ys, ?_⟩
      rw [List.mapM_cons, hy, hys]
      rfl

/-! ## The links -/

variable {α κ : Type} [DecidableEq κ]

section Links

variable (key : α → κ) (parent : α → Option κ) (all : List α)

/-- The items that name an item as their parent. -/
def childrenOf (x : α) : List α := all.filter fun c => parent c = some (key x)

/-- The items below one, unless its key is on the path. -/
def grow : ℕ → List κ → α → Option (ItemTree α)
  | 0, _, _ => none
  | fuel + 1, visiting, x =>
      if key x ∈ visiting then some (.node x [])
      else
        ((childrenOf key parent all x).mapM
          (grow fuel (key x :: visiting))).map (.node x)

/-- The links lead from an item to one without a parent, in so many steps. -/
inductive RootedAt : ℕ → α → Prop
  | root {x : α} (hx : x ∈ all) (hnone : parent x = none) : RootedAt 0 x
  | link {n : ℕ} {p x : α} (hx : x ∈ all) (hparent : parent x = some (key p))
      (hp : RootedAt n p) : RootedAt (n + 1) x

def Rooted (x : α) : Prop := ∃ n, RootedAt key parent all n x

/-- So many links lead from an item up to another. -/
inductive Below : ℕ → α → α → Prop
  | refl (x : α) : Below 0 x x
  | step {n : ℕ} {x p y : α} (hp : Below n x p)
      (hy : y ∈ childrenOf key parent all p) : Below (n + 1) x y

end Links

variable {key : α → κ} {parent : α → Option κ} {all : List α}

theorem mem_childrenOf {x c : α} : c ∈ childrenOf key parent all x ↔
    c ∈ all ∧ parent c = some (key x) := by
  simp [childrenOf]

omit [DecidableEq κ] in
theorem RootedAt.mem {n : ℕ} {x : α} (h : RootedAt key parent all n x) :
    x ∈ all := by
  cases h with
  | root hx => exact hx
  | link hx => exact hx

theorem Below.head {n : ℕ} {x c y : α} (hc : c ∈ childrenOf key parent all x)
    (h : Below key parent all n c y) : Below key parent all (n + 1) x y := by
  induction h with
  | refl => exact .step (.refl x) hc
  | step _ hy ih => exact .step (ih hc) hy

theorem Below.cases_head {n : ℕ} {x y : α}
    (h : Below key parent all (n + 1) x y) :
    ∃ c ∈ childrenOf key parent all x, Below key parent all n c y := by
  induction n generalizing y with
  | zero =>
      cases h with
      | step hp hy =>
          cases hp
          exact ⟨y, hy, .refl y⟩
  | succ n ih =>
      cases h with
      | step hp hy =>
          obtain ⟨c, hc, hbelow⟩ := ih hp
          exact ⟨c, hc, .step hbelow hy⟩

theorem rootedAt_of_below {n m : ℕ} {x y : α}
    (hx : RootedAt key parent all n x) (h : Below key parent all m x y) : RootedAt key parent all (n + m) y := by
  induction h with
  | refl => exact hx
  | step _ hy ih =>
      obtain ⟨hmem, hparent⟩ := mem_childrenOf.mp hy
      exact .link hmem hparent (ih hx)

theorem RootedAt.exists_root {n : ℕ} {x : α} (h : RootedAt key parent all n x) :
    ∃ r ∈ all, parent r = none ∧ Below key parent all n r x := by
  induction h with
  | @root x hx hnone => exact ⟨x, hx, hnone, .refl x⟩
  | link hx hparent _ ih =>
      obtain ⟨r, hr, hnone, hbelow⟩ := ih
      exact ⟨r, hr, hnone, .step hbelow (mem_childrenOf.mpr ⟨hx, hparent⟩)⟩

section Keys

variable (hkeys : ∀ x ∈ all, ∀ y ∈ all, key x = key y → x = y)

include hkeys

omit [DecidableEq κ] in
/-- The links of an item are determined. -/
theorem RootedAt.unique {n m : ℕ} {x : α} (hn : RootedAt key parent all n x)
    (hm : RootedAt key parent all m x) : n = m := by
  induction hn generalizing m with
  | root _ hnone =>
      cases hm with
      | root => rfl
      | link _ hparent => simp [hnone] at hparent
  | link _ hparent hp ih =>
      cases hm with
      | root _ hnone => simp [hnone] at hparent
      | link _ hparent' hp' =>
          have hsame := hkeys _ hp.mem _ hp'.mem
            (Option.some.inj (hparent.symm.trans hparent'))
          rw [ih (hsame ▸ hp')]

/-- Two items so many links above another are the same. -/
theorem Below.unique {n : ℕ} {x x' y : α} (hx : x ∈ all) (hx' : x' ∈ all)
    (h : Below key parent all n x y) (h' : Below key parent all n x' y) :
    x = x' := by
  induction h generalizing x' with
  | refl =>
      cases h'
      rfl
  | @step n x p y hp hy ih =>
      cases h' with
      | @step _ _ p' _ hp' hy' =>
          have hmem : ∀ {m : ℕ} {a b : α}, a ∈ all →
              Below key parent all m a b → b ∈ all := by
            intro m a b ha hbelow
            cases hbelow with
            | refl => exact ha
            | step _ hb => exact (mem_childrenOf.mp hb).1
          have hsame := hkeys _ (hmem hx hp) _ (hmem hx' hp')
            (Option.some.inj ((mem_childrenOf.mp hy).2.symm.trans
              (mem_childrenOf.mp hy').2))
          exact ih hx hx' (hsame ▸ hp')

theorem RootedAt.not_below {n m : ℕ} {x : α} (hx : RootedAt key parent all n x)
    (h : Below key parent all (m + 1) x x) : False := by
  have hsame := hx.unique hkeys (rootedAt_of_below hx h)
  omega

theorem RootedAt.disjoint_children {n m m' : ℕ} {x c c' y : α}
    (hx : RootedAt key parent all n x) (hc : c ∈ childrenOf key parent all x)
    (hc' : c' ∈ childrenOf key parent all x)
    (h : Below key parent all m c y) (h' : Below key parent all m' c' y) :
    c = c' := by
  have hdepth := (rootedAt_of_below hx (h.head hc)).unique hkeys
    (rootedAt_of_below hx (h'.head hc'))
  obtain rfl : m = m' := by omega
  exact h.unique hkeys (mem_childrenOf.mp hc).1 (mem_childrenOf.mp hc').1 h'

end Keys

/-! ## Growing a tree -/

/-- Along a path the keys are those of items, so the fuel of one step for each
item, and one more, is enough. -/
theorem exists_grow {fuel : ℕ} {visiting : List κ} {x : α} (hx : x ∈ all)
    (hfuel : (all.filter fun y => key y ∉ visiting).length < fuel) :
    ∃ t, grow key parent all fuel visiting x = some t := by
  induction fuel generalizing visiting x with
  | zero => omega
  | succ fuel ih =>
      by_cases hkey : key x ∈ visiting
      · exact ⟨.node x [], by rw [grow, if_pos hkey]⟩
      · have hless : (all.filter fun y => key y ∉ key x :: visiting).length <
            (all.filter fun y => key y ∉ visiting).length := by
          have hsub : (all.filter fun y => key y ∉ key x :: visiting) =
              (all.filter fun y => key y ∉ visiting).filter
                fun y => key y ≠ key x := by
            rw [List.filter_filter]
            refine List.filter_congr fun y _ => ?_
            simp [not_or]
          rw [hsub]
          refine List.length_filter_lt_length_iff_exists.mpr ⟨x, ?_, by simp⟩
          exact List.mem_filter.mpr ⟨hx, by simpa using hkey⟩
        have hgrown : ∀ c ∈ childrenOf key parent all x,
            ∃ t, grow key parent all fuel (key x :: visiting) c = some t :=
          fun c hc => ih (mem_childrenOf.mp hc).1 (by omega)
        obtain ⟨ts, hts⟩ := exists_mapM_eq_some hgrown
        exact ⟨.node x ts, by rw [grow, if_neg hkey, hts]; rfl⟩

theorem grow_item {fuel : ℕ} {visiting : List κ} {x : α} {t : ItemTree α}
    (h : grow key parent all fuel visiting x = some t) : t.item = x := by
  cases fuel with
  | zero => contradiction
  | succ fuel =>
      rw [grow] at h
      split at h
      next =>
        cases h
        rfl
      next =>
        obtain ⟨ts, -, rfl⟩ := Option.map_eq_some_iff.mp h
        rfl

/-- A tree has everything below its item, once, and every item in it has its
own children. -/
structure Grown (key : α → κ) (parent : α → Option κ) (all : List α)
    (t : ItemTree α) : Prop where
  mem_iff : ∀ y, y ∈ t.items ↔ ∃ n, Below key parent all n t.item y
  nodup : t.items.Nodup
  children : ∀ s ∈ t.nodes,
    s.children.map ItemTree.item = childrenOf key parent all s.item

section Grow

variable (hkeys : ∀ x ∈ all, ∀ y ∈ all, key x = key y → x = y)
  (hall : all.Nodup)

include hkeys hall

theorem grown_node {n : ℕ} {x : α} {ts : List (ItemTree α)}
    (hx : RootedAt key parent all n x)
    (hitems : ts.map ItemTree.item = childrenOf key parent all x)
    (hts : ∀ t ∈ ts, Grown key parent all t) :
    Grown key parent all (.node x ts) := by
  have hchild : ∀ {t}, t ∈ ts → t.item ∈ childrenOf key parent all x := by
    intro t ht
    rw [← hitems]
    exact List.mem_map_of_mem ht
  refine ⟨?_, ?_, ?_⟩
  · intro y
    rw [ItemTree.items_node, List.mem_cons, List.mem_flatMap]
    constructor
    · rintro (rfl | ⟨t, ht, hy⟩)
      · exact ⟨0, .refl y⟩
      · obtain ⟨m, hbelow⟩ := ((hts t ht).mem_iff y).mp hy
        exact ⟨m + 1, hbelow.head (hchild ht)⟩
    · rintro ⟨m, hbelow⟩
      cases m with
      | zero =>
          cases hbelow
          exact Or.inl rfl
      | succ m =>
          obtain ⟨c, hc, hrest⟩ := hbelow.cases_head
          change c ∈ childrenOf key parent all x at hc
          rw [← hitems] at hc
          obtain ⟨t, ht, rfl⟩ := List.mem_map.mp hc
          exact Or.inr ⟨t, ht, ((hts t ht).mem_iff y).mpr ⟨m, hrest⟩⟩
  · rw [ItemTree.items_node, List.nodup_cons, List.nodup_flatMap]
    refine ⟨?_, fun t ht => (hts t ht).nodup, ?_⟩
    · rw [List.mem_flatMap]
      rintro ⟨t, ht, hy⟩
      obtain ⟨m, hbelow⟩ := ((hts t ht).mem_iff x).mp hy
      exact hx.not_below hkeys (hbelow.head (hchild ht))
    · have hdistinct : ts.Pairwise fun t t' => t.item ≠ t'.item := by
        rw [← List.pairwise_map (f := ItemTree.item), hitems]
        exact hall.filter _
      refine hdistinct.imp_of_mem fun {t t'} ht ht' hne => ?_
      intro y hy hy'
      obtain ⟨m, hbelow⟩ := ((hts t ht).mem_iff y).mp hy
      obtain ⟨m', hbelow'⟩ := ((hts t' ht').mem_iff y).mp hy'
      exact hne (hx.disjoint_children hkeys (hchild ht) (hchild ht') hbelow
        hbelow')
  · intro s hs
    rw [ItemTree.nodes, List.mem_cons, ItemTree.nodesAll_eq, List.mem_flatMap] at hs
    rcases hs with rfl | ⟨t, ht, hs⟩
    · exact hitems
    · exact (hts t ht).children s hs

theorem grown_grow {fuel : ℕ} {visiting : List κ} {n : ℕ} {x : α} {t : ItemTree α}
    (hx : RootedAt key parent all n x)
    (hpath : ∀ k ∈ visiting, ∃ a ∈ all, key a = k ∧
      ∃ m, Below key parent all (m + 1) a x)
    (h : grow key parent all fuel visiting x = some t) :
    Grown key parent all t := by
  induction fuel generalizing visiting n x t with
  | zero => contradiction
  | succ fuel ih =>
      have hfresh : key x ∉ visiting := by
        intro hmem
        obtain ⟨a, ha, hkey, m, hbelow⟩ := hpath _ hmem
        rw [hkeys a ha x hx.mem hkey] at hbelow
        exact hx.not_below hkeys hbelow
      rw [grow, if_neg hfresh] at h
      obtain ⟨ts, hts, rfl⟩ := Option.map_eq_some_iff.mp h
      obtain ⟨hitems, hgrow⟩ := mapM_eq_some (fun c t => grow_item) hts
      refine grown_node hkeys hall hx hitems fun t ht => ?_
      have hc : t.item ∈ childrenOf key parent all x := by
        rw [← hitems]
        exact List.mem_map_of_mem ht
      obtain ⟨hmem, hparent⟩ := mem_childrenOf.mp hc
      refine ih (.link hmem hparent hx) ?_ (hgrow t ht)
      intro k hk
      rcases List.mem_cons.mp hk with rfl | hk
      · exact ⟨x, hx.mem, rfl, 0, .step (.refl x) hc⟩
      · obtain ⟨a, ha, hkey, m, hbelow⟩ := hpath k hk
        exact ⟨a, ha, hkey, m + 1, .step hbelow hc⟩

theorem grown_forest {fuel : ℕ} {ts : List (ItemTree α)}
    (h : (all.filter fun x => parent x = none).mapM
      (grow key parent all fuel []) = some ts) :
    ts.map ItemTree.item = all.filter (fun x => parent x = none) ∧
      (∀ y, y ∈ ts.flatMap ItemTree.items ↔ Rooted key parent all y) ∧
      (ts.flatMap ItemTree.items).Nodup ∧
      ∀ s ∈ ts.flatMap ItemTree.nodes,
        s.children.map ItemTree.item = childrenOf key parent all s.item := by
  obtain ⟨hitems, hgrow⟩ := mapM_eq_some (fun c t => grow_item) h
  have hroot : ∀ {t}, t ∈ ts → t.item ∈ all ∧ parent t.item = none := by
    intro t ht
    have hmem := List.mem_map_of_mem (f := ItemTree.item) ht
    rw [hitems, List.mem_filter] at hmem
    simpa using hmem
  have hgrown : ∀ t ∈ ts, Grown key parent all t := by
    intro t ht
    obtain ⟨hmem, hnone⟩ := hroot ht
    exact grown_grow hkeys hall (.root hmem hnone) (by simp) (hgrow t ht)
  refine ⟨hitems, ?_, ?_, ?_⟩
  · intro y
    rw [List.mem_flatMap]
    constructor
    · rintro ⟨t, ht, hy⟩
      obtain ⟨n, hbelow⟩ := ((hgrown t ht).mem_iff y).mp hy
      obtain ⟨hmem, hnone⟩ := hroot ht
      exact ⟨0 + n, rootedAt_of_below (.root hmem hnone) hbelow⟩
    · rintro ⟨n, hrooted⟩
      obtain ⟨r, hr, hnone, hbelow⟩ := hrooted.exists_root
      have hmem : r ∈ ts.map ItemTree.item := by
        rw [hitems, List.mem_filter]
        simpa using ⟨hr, hnone⟩
      obtain ⟨t, ht, rfl⟩ := List.mem_map.mp hmem
      exact ⟨t, ht, ((hgrown t ht).mem_iff y).mpr ⟨n, hbelow⟩⟩
  · rw [List.nodup_flatMap]
    refine ⟨fun t ht => (hgrown t ht).nodup, ?_⟩
    have hdistinct : ts.Pairwise fun t t' => t.item ≠ t'.item := by
      rw [← List.pairwise_map (f := ItemTree.item), hitems]
      exact hall.filter _
    refine hdistinct.imp_of_mem fun {t t'} ht ht' hne => ?_
    intro y hy hy'
    obtain ⟨n, hbelow⟩ := ((hgrown t ht).mem_iff y).mp hy
    obtain ⟨n', hbelow'⟩ := ((hgrown t' ht').mem_iff y).mp hy'
    obtain ⟨hmem, hnone⟩ := hroot ht
    obtain ⟨hmem', hnone'⟩ := hroot ht'
    have hdepth := (rootedAt_of_below (.root hmem hnone) hbelow).unique hkeys
      (rootedAt_of_below (.root hmem' hnone') hbelow')
    obtain rfl : n = n' := by omega
    exact hne (hbelow.unique hkeys hmem hmem' hbelow')
  · intro s hs
    obtain ⟨t, ht, hs⟩ := List.mem_flatMap.mp hs
    exact (hgrown t ht).children s hs

end Grow

end ParentForest
