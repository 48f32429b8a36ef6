import Mathlib.Algebra.BigOperators.Ring.Finset
import Mathlib.Algebra.Order.BigOperators.Group.List
import Mathlib.Tactic.Positivity
import Mathlib.Tactic.Ring
import SliceProfiler.Viewer.Layout
import SliceProfiler.Viewer.Lemmas.Flame

/-!
# Rectangles of the flame graph

The rectangles that `walk` draws lie inside the one of its node. The rectangles of two children lie side by side, since
the children are tiles of their parent.
-/

namespace SliceProfiler.Viewer

open Lib

/-! ## Nodes by their path -/

theorem NodeRef.get_address {n c : NodeRef} {label : String} (h : n.get label = some c) :
    c.address = n.address ++ [label] := by
  obtain ⟨m, -, rfl⟩ := Option.map_eq_some_iff.mp h
  rfl

theorem NodeRef.mem_of_get {n c : NodeRef} {label : String} (h : n.get label = some c) :
    (label, c.node) ∈ n.node.children := by
  obtain ⟨m, hm, rfl⟩ := Option.map_eq_some_iff.mp h
  exact lookupKey_mem hm

theorem nodeAtPath_append (n : NodeRef) (path rest : List String) :
    nodeAtPath n (path ++ rest) = (nodeAtPath n path).bind fun m => nodeAtPath m rest := by
  rw [nodeAtPath, List.foldl_append]
  change rest.foldl _ (nodeAtPath n path) = _
  cases nodeAtPath n path with
  | some m => rfl
  | none => induction rest with
    | nil => rfl
    | cons _ _ ih => exact ih

theorem nodeAtPath_cons (n : NodeRef) (label : String) (path : List String) :
    nodeAtPath n (label :: path) = (n.get label).bind fun m => nodeAtPath m path :=
  nodeAtPath_append n [label] path

theorem nodeAtPath_concat (n : NodeRef) (path : List String) (label : String) :
    nodeAtPath n (path ++ [label]) = (nodeAtPath n path).bind (·.get label) :=
  nodeAtPath_append n path [label]

theorem nodeAtPath_address {n m : NodeRef} {path : List String} (h : nodeAtPath n path = some m) :
    m.address = n.address ++ path := by
  induction path generalizing n with
  | nil => cases h; simp
  | cons label path ih =>
      rw [nodeAtPath_cons] at h
      obtain ⟨c, hc, hm⟩ := Option.bind_eq_some_iff.mp h
      rw [ih hm, NodeRef.get_address hc, List.append_assoc, List.singleton_append]

theorem nodeAtPath_at (n : NodeRef) (path : List String) : (nodeAtPath n path).map NodeRef.node = n.node.at path := by
  induction path generalizing n with
  | nil => rfl
  | cons label path ih =>
      rw [nodeAtPath_cons, Node.at, NodeRef.get]
      cases lookupKey label n.node.children with
      | none => rfl
      | some c => exact ih _

theorem nodeAtPath_value {n m : NodeRef} {path : List String} (h : nodeAtPath n path = some m) :
    n.node.valueAt path = m.node.value := by
  rw [Node.valueAt, ← nodeAtPath_at, h]
  rfl

/-- The paths that lead to a node with a value. -/
theorem valueAt_pos_iff {n : NodeRef} {path : List String} :
    0 < n.node.valueAt path ↔ ∃ m, nodeAtPath n path = some m ∧ 0 < m.node.value := by
  rw [Node.valueAt, ← nodeAtPath_at]
  cases nodeAtPath n path with
  | none => simp
  | some m => simp

/-! ## Sound trees -/

structure NodeRef.Sound (n : NodeRef) : Prop where
  distinct : n.node.Distinct
  conserves : n.node.Conserves

theorem NodeRef.Sound.child {n c : NodeRef} (h : n.Sound) (hc : c ∈ n.children) : c.Sound := by
  obtain ⟨⟨label, child⟩, hm, rfl⟩ := List.mem_map.mp hc
  obtain ⟨hd, hn⟩ := h
  cases hd with
  | node _ hd => cases hn with
    | node _ _ hn => exact ⟨hd _ hm, hn _ hm⟩

theorem NodeRef.mem_children_of_get {n c : NodeRef} {label : String} (h : n.get label = some c) : c ∈ n.children := by
  refine List.mem_map.mpr ⟨_, NodeRef.mem_of_get h, ?_⟩
  rw [← NodeRef.get_address h]

theorem NodeRef.Sound.name_of_get {n c : NodeRef} {label : String} (h : n.Sound) (hc : n.get label = some c) :
    c.node.name = label := by
  cases h.conserves with
  | node _ hname _ => exact hname _ (NodeRef.mem_of_get hc)

theorem NodeRef.Sound.get_name {n c : NodeRef} (h : n.Sound) (hc : c ∈ n.children) : n.get c.node.name = some c := by
  obtain ⟨⟨label, child⟩, hm, rfl⟩ := List.mem_map.mp hc
  cases h.distinct with
  | node hd _ => cases h.conserves with
    | node _ hname _ =>
        have hl : child.name = label := hname _ hm
        rw [NodeRef.get, hl, lookupKey_eq_some hd hm]
        rfl

theorem NodeRef.Sound.value_eq {n : NodeRef} (h : n.Sound) :
    n.node.value = n.node.selfValue + n.node.childrenValue := by
  cases h.conserves with
  | node hv _ _ => exact hv

theorem NodeRef.Sound.value_child_le {n c : NodeRef} (h : n.Sound) (hc : c ∈ n.children) :
    c.node.value ≤ n.node.value := by
  obtain ⟨d, hm, rfl⟩ := List.mem_map.mp hc
  have hle : d.2.value ≤ n.node.childrenValue := List.single_le_sum (by simp) _ (List.mem_map_of_mem hm)
  rw [h.value_eq]
  exact hle.trans (Nat.le_add_left ..)

theorem NodeRef.Sound.nodeAtPath {n m : NodeRef} {path : List String} (h : n.Sound)
    (hm : nodeAtPath n path = some m) : m.Sound ∧ m.node.value ≤ n.node.value := by
  induction path generalizing n with
  | nil => cases hm; exact ⟨h, le_rfl⟩
  | cons label path ih =>
      rw [nodeAtPath_cons] at hm
      obtain ⟨c, hc, hm⟩ := Option.bind_eq_some_iff.mp hm
      have hmem := NodeRef.mem_children_of_get hc
      obtain ⟨hs, hle⟩ := ih (h.child hmem) hm
      exact ⟨hs, hle.trans (h.value_child_le hmem)⟩

theorem NodeRef.Sound.name_nodeAtPath {n m : NodeRef} {path : List String} {label : String} (h : n.Sound)
    (hm : Viewer.nodeAtPath n (path ++ [label]) = some m) : m.node.name = label := by
  rw [nodeAtPath_concat] at hm
  obtain ⟨c, hc, hm⟩ := Option.bind_eq_some_iff.mp hm
  exact (h.nodeAtPath hc).1.name_of_get hm

theorem Node.IsRoot.sound {n : Node} (h : n.IsRoot) : NodeRef.Sound ⟨[], n⟩ := ⟨h.distinct, h.conserves⟩

/-! ## The children as tiles -/

section Placed

variable {localeCompare : String → String → Ordering} {n : NodeRef} {x w : ℚ}

theorem NodeRef.mem_shown {c : NodeRef} : c ∈ n.shown localeCompare ↔ c ∈ n.children ∧ 0 < c.node.value := by
  simp [NodeRef.shown]

theorem NodeRef.childWidth_nonneg (hw : 0 ≤ w) (c : NodeRef) : 0 ≤ n.childWidth w c := by
  unfold NodeRef.childWidth
  positivity

theorem NodeRef.childrenValue_eq : n.node.childrenValue = (n.children.map (·.node.value)).sum := by
  simp [Node.childrenValue, NodeRef.children, Function.comp_def]

/-- The children that are drawn take no more than the width of their parent. -/
theorem NodeRef.Sound.childWidths_le (h : n.Sound) (hv : 0 < n.node.value) (hw : 0 ≤ w) :
    ((n.shown localeCompare).map (n.childWidth w)).sum ≤ w := by
  have hperm :=
      (List.mergeSort_perm (n.children.filter fun child => 0 < child.node.value) (comesFirst localeCompare)).map
    (n.childWidth w)
  have hfilter : ((n.children.filter fun child => 0 < child.node.value).map (·.node.value)).sum ≤ n.node.value := by
    rw [h.value_eq, NodeRef.childrenValue_eq]
    exact ((List.filter_sublist.map _).sum_le_sum (by simp)).trans (Nat.le_add_left ..)
  calc ((n.shown localeCompare).map (n.childWidth w)).sum
      = ((n.children.filter fun child => 0 < child.node.value).map (n.childWidth w)).sum := hperm.sum_eq
    _ = w / n.node.value * (((n.children.filter fun child => 0 < child.node.value).map (·.node.value)).sum : ℕ) := by
        rw [Nat.cast_list_sum, List.map_map, ← List.sum_map_mul_left]
        congr 2
        funext c
        simp only [NodeRef.childWidth, Function.comp_apply]
        ring
    _ ≤ w / n.node.value * n.node.value := by gcongr
    _ = w := div_mul_cancel₀ w (by exact_mod_cast hv.ne')

theorem NodeRef.Sound.placed_bounds (h : n.Sound) (hv : 0 < n.node.value) (hw : 0 ≤ w) {c : NodeRef × ℚ}
    (hc : c ∈ n.placed localeCompare x w) : x ≤ c.2 ∧ c.2 + n.childWidth w c.1 ≤ x + w := by
  obtain ⟨hlow, hhigh⟩ := tile_bounds (fun c _ => NodeRef.childWidth_nonneg hw c) hc
  exact ⟨hlow, hhigh.trans (add_le_add_right (h.childWidths_le hv hw) x)⟩

theorem NodeRef.Sound.shown_names (h : n.Sound) :
    (n.shown localeCompare).Pairwise fun a b => a.node.name ≠ b.node.name := by
  have hkeys : n.children.map (·.node.name) = n.node.children.map Prod.fst := by
    cases h.conserves with
    | node _ hname _ => simpa [NodeRef.children] using hname
  have hnodup : (n.children.map (·.node.name)).Nodup := by
    rw [hkeys]
    cases h.distinct with
    | node hd _ => exact hd
  have hfilter := hnodup.sublist (List.filter_sublist (p := fun child : NodeRef => decide (0 < child.node.value)).map _)
  exact List.pairwise_map.mp ((((List.mergeSort_perm _ _).map _).nodup_iff).mpr hfilter)

theorem NodeRef.Sound.placed_pairwise (h : n.Sound) (hw : 0 ≤ w) : (n.placed localeCompare x w).Pairwise fun a b =>
    a.1.node.name ≠ b.1.node.name ∧ a.2 + n.childWidth w a.1 ≤ b.2 :=
  tile_pairwise (fun c _ => NodeRef.childWidth_nonneg hw c) h.shown_names

end Placed

/-! ## What a walk draws -/

section Walk

variable (localeCompare : String → String → Ordering)

/-- The walks from the children. -/
def walkChildren (current : NodeRef) (x w : ℚ) (path : List String) (depth : Nat) : List Item :=
  (current.placed localeCompare x w).flatMap fun (child, cursor) =>
    walk localeCompare child cursor (current.childWidth w child) (path ++ [child.node.name]) depth

theorem walk_eq (current : NodeRef) (x w : ℚ) (path : List String) (depth : Nat) :
    walk localeCompare current x w path depth =
      ⟨current, x, w, path, depth⟩ :: walkChildren localeCompare current x w path (depth + 1) := by
  rw [walk, walkChildren, List.flatMap_subtype (fun _ _ => rfl), List.unattach_attach]

/-- Two rectangles of which the second one is drawn later. -/
structure Item.Before (a b : Item) : Prop where
  apart : a.depth = b.depth → a.x + a.w ≤ b.x
  holds : a.Holds b
  held : b.Holds a

/-- The rectangles lie under a node, which takes the width `w` from `x`. -/
structure Lays (current : NodeRef) (x w : ℚ) (path : List String) (depth : Nat) (items : List Item) : Prop where
  leads : ∀ i ∈ items, ∃ rest, nodeAtPath current rest = some i.current ∧ i.path = path ++ rest
  inside : ∀ i ∈ items, x ≤ i.x ∧ 0 ≤ i.w ∧ i.x + i.w ≤ x + w
  widths : ∀ i ∈ items, i.w = w * ((i.current.node.value : ℚ) / current.node.value)
  depths : ∀ i ∈ items, depth ≤ i.depth
  ordered : items.Pairwise Item.Before

variable {localeCompare} {current child : NodeRef} {x w : ℚ} {path : List String} {depth : Nat} {items : List Item}

theorem Lays.address (h : Lays current x w path depth items) {i : Item} (hi : i ∈ items) :
    current.address <+: i.current.address := by
  obtain ⟨rest, hrest, -⟩ := h.leads i hi
  exact ⟨rest, (nodeAtPath_address hrest).symm⟩

/-- A node is no child of a node under it. -/
theorem Lays.not_above (h : Lays current x w path depth items) {i : Item} (hi : i ∈ items) (label : String) :
    i.current.get label ≠ some current := by
  intro hget
  have hlen := (h.address hi).length_le
  rw [NodeRef.get_address hget, List.length_append] at hlen
  simp at hlen

/-- A walk from a node draws the node itself in front of its children. -/
theorem Lays.cons (h : Lays current x w path (depth + 1) items) (hv : 0 < current.node.value) (hw : 0 ≤ w) :
    Lays current x w path depth (⟨current, x, w, path, depth⟩ :: items) where
  leads := by
    simp only [List.mem_cons, forall_eq_or_imp]
    exact ⟨⟨[], rfl, (List.append_nil _).symm⟩, h.leads⟩
  inside := by
    simp only [List.mem_cons, forall_eq_or_imp]
    exact ⟨⟨le_rfl, hw, le_rfl⟩, h.inside⟩
  widths := by
    simp only [List.mem_cons, forall_eq_or_imp]
    refine ⟨?_, h.widths⟩
    rw [div_self (by exact_mod_cast hv.ne'), mul_one]
  depths := by
    simp only [List.mem_cons, forall_eq_or_imp]
    exact ⟨le_rfl, fun i hi => (Nat.le_succ _).trans (h.depths i hi)⟩
  ordered := by
    refine .cons (fun i hi => ⟨?_, fun _ _ => ?_, fun label hget => ?_⟩) h.ordered
    · intro he
      have hd : depth + 1 ≤ i.depth := h.depths i hi
      simp only at he
      omega
    · exact ⟨(h.inside i hi).1, (h.inside i hi).2.2⟩
    · exact absurd hget (h.not_above hi label)

/-- A node under one child is no parent or child of a node under another one. -/
theorem not_child_of_names {a b m m' c : NodeRef} {rest rest' : List String} {label : String} (hc : current.Sound)
    (ha : a ∈ current.children) (hb : b ∈ current.children) (hne : a.node.name ≠ b.node.name)
    (hm : nodeAtPath a rest = some m) (hm' : nodeAtPath b rest' = some m') (hget : m.get label = some c) : m' ≠ c := by
  rintro rfl
  have haddress := NodeRef.get_address hget
  rw [nodeAtPath_address hm, nodeAtPath_address hm', NodeRef.get_address (hc.get_name ha),
    NodeRef.get_address (hc.get_name hb)] at haddress
  simp only [List.append_assoc, List.append_cancel_left_eq, List.cons_append, List.cons.injEq] at haddress
  exact hne haddress.1.symm

theorem walkChildren_lays (hs : current.Sound) (hv : 0 < current.node.value) (hw : 0 ≤ w)
    (h : ∀ c ∈ current.placed localeCompare x w,
      Lays c.1 c.2 (current.childWidth w c.1) (path ++ [c.1.node.name]) depth
        (walk localeCompare c.1 c.2 (current.childWidth w c.1) (path ++ [c.1.node.name]) depth)) :
    Lays current x w path depth (walkChildren localeCompare current x w path depth) where
  leads := by
    intro i hi
    obtain ⟨c, hc, hi⟩ := List.mem_flatMap.mp hi
    obtain ⟨rest, hrest, hpath⟩ := (h c hc).leads i hi
    refine ⟨c.1.node.name :: rest, ?_, ?_⟩
    · rw [nodeAtPath_cons, hs.get_name (mem_children_of_mem_placed localeCompare hc), Option.bind_some, hrest]
    · rw [hpath, List.append_assoc, List.singleton_append]
  inside := by
    intro i hi
    obtain ⟨c, hc, hi⟩ := List.mem_flatMap.mp hi
    obtain ⟨hlow, hnonneg, hhigh⟩ := (h c hc).inside i hi
    obtain ⟨hlow', hhigh'⟩ := hs.placed_bounds hv hw hc
    exact ⟨hlow'.trans hlow, hnonneg, hhigh.trans hhigh'⟩
  widths := by
    intro i hi
    obtain ⟨c, hc, hi⟩ := List.mem_flatMap.mp hi
    have hpos : 0 < c.1.node.value := (NodeRef.mem_shown.mp (mem_of_mem_tile hc)).2
    have hne : (c.1.node.value : ℚ) ≠ 0 := by exact_mod_cast hpos.ne'
    rw [(h c hc).widths i hi, NodeRef.childWidth, mul_assoc, div_mul_div_comm, mul_comm (current.node.value : ℚ),
      mul_div_mul_left _ _ hne]
  depths := by
    intro i hi
    obtain ⟨c, hc, hi⟩ := List.mem_flatMap.mp hi
    exact (h c hc).depths i hi
  ordered := by
    refine List.pairwise_flatMap.mpr ⟨fun c hc => (h c hc).ordered, ?_⟩
    refine (hs.placed_pairwise hw).imp_of_mem fun {c d} hc hd hcd i hi j hj => ?_
    obtain ⟨rest, hrest, -⟩ := (h c hc).leads i hi
    obtain ⟨rest', hrest', -⟩ := (h d hd).leads j hj
    have hcm := mem_children_of_mem_placed localeCompare hc
    have hdm := mem_children_of_mem_placed localeCompare hd
    refine ⟨fun _ => ?_, fun label hget => ?_, fun label hget => ?_⟩
    · exact ((h c hc).inside i hi).2.2.trans (hcd.2.trans ((h d hd).inside j hj).1)
    · exact absurd rfl (not_child_of_names hs hcm hdm hcd.1 hrest hrest' hget)
    · exact absurd rfl (not_child_of_names hs hdm hcm hcd.1.symm hrest' hrest hget)

theorem walk_lays {n : Node} (hn : n.Conserves) : ∀ {address x w path depth}, n.Distinct → 0 < n.value → 0 ≤ w →
    Lays ⟨address, n⟩ x w path depth (walk localeCompare ⟨address, n⟩ x w path depth) := by
  induction hn with
  | @node n hv hname hc ih =>
      -- the walks from the children that are drawn are known; they are tiles of the rectangle of `n`
      intro address x w path depth hd hpos hw
      have hs : NodeRef.Sound ⟨address, n⟩ := ⟨hd, .node hv hname hc⟩
      rw [walk_eq]
      refine Lays.cons (walkChildren_lays hs hpos hw ?_) hpos hw
      intro c hm
      obtain ⟨hmem, hchild⟩ := NodeRef.mem_shown.mp (mem_of_mem_tile hm)
      have hdistinct := (hs.child hmem).distinct
      obtain ⟨d, hd, he⟩ := List.mem_map.mp hmem
      rw [← he] at hdistinct hchild ⊢
      exact ih d hd hdistinct hchild (NodeRef.childWidth_nonneg hw _)

theorem NodeRef.Sound.walk_lays (hs : current.Sound) (hv : 0 < current.node.value) (hw : 0 ≤ w) :
    Lays current x w path depth (walk localeCompare current x w path depth) :=
  Viewer.walk_lays hs.conserves hs.distinct hv hw

theorem NodeRef.Sound.walkChildren_lays (hs : current.Sound) (hv : 0 < current.node.value) (hw : 0 ≤ w) :
    Lays current x w path depth (walkChildren localeCompare current x w path depth) := by
  refine Viewer.walkChildren_lays hs hv hw fun c hc => ?_
  obtain ⟨hm, hpos⟩ := NodeRef.mem_shown.mp (mem_of_mem_tile hc)
  exact (hs.child hm).walk_lays hpos (NodeRef.childWidth_nonneg hw c.1)

end Walk

/-! ## Every node once -/

section Once

variable {localeCompare : String → String → Ordering} {current m : NodeRef} {x w : ℚ} {path rest : List String}
  {depth : Nat} {items : List Item}

/-- The nodes under `current` with a value, each drawn once. -/
structure DrawsOnce (path : List String) (items : List Item) : Prop where
  positive : ∀ i ∈ items, 0 < i.current.node.value
  below : ∀ i ∈ items, path <+: i.path
  distinct : (items.map (·.path)).Nodup

theorem walkChildren_drawsOnce (hs : current.Sound)
    (h : ∀ c ∈ current.placed localeCompare x w, DrawsOnce (path ++ [c.1.node.name])
      (walk localeCompare c.1 c.2 (current.childWidth w c.1) (path ++ [c.1.node.name]) depth)) :
    DrawsOnce path (walkChildren localeCompare current x w path depth) ∧
      ∀ i ∈ walkChildren localeCompare current x w path depth, i.path ≠ path := by
  refine ⟨⟨?_, ?_, ?_⟩, ?_⟩
  · intro i hi
    obtain ⟨c, hc, hi⟩ := List.mem_flatMap.mp hi
    exact (h c hc).positive i hi
  · intro i hi
    obtain ⟨c, hc, hi⟩ := List.mem_flatMap.mp hi
    exact (List.prefix_append _ _).trans ((h c hc).below i hi)
  · rw [walkChildren, List.map_flatMap]
    refine List.pairwise_flatMap.mpr ⟨fun c hc => (h c hc).distinct, ?_⟩
    have hnames : ((current.placed localeCompare x w).map Prod.fst).Pairwise fun a b => a.node.name ≠ b.node.name := by
      rw [NodeRef.placed, map_fst_tile]
      exact hs.shown_names
    refine (List.pairwise_map.mp hnames).imp_of_mem fun {c d} hc hd hne a ha b hb => ?_
    rintro rfl
    obtain ⟨i, hi, rfl⟩ := List.mem_map.mp ha
    obtain ⟨j, hj, he⟩ := List.mem_map.mp hb
    obtain ⟨r, hr⟩ := (h c hc).below i hi
    obtain ⟨r', hr'⟩ := (h d hd).below j hj
    rw [he, ← hr] at hr'
    simp only [List.append_assoc, List.append_cancel_left_eq, List.cons_append, List.cons.injEq] at hr'
    exact hne hr'.1.symm
  · intro i hi he
    obtain ⟨c, hc, hi⟩ := List.mem_flatMap.mp hi
    have hlen := ((h c hc).below i hi).length_le
    rw [he, List.length_append, List.length_singleton] at hlen
    omega

theorem walk_drawsOnce {n : Node} (hn : n.Conserves) : ∀ {address x w path depth}, n.Distinct → 0 < n.value →
    DrawsOnce path (walk localeCompare ⟨address, n⟩ x w path depth) := by
  induction hn with
  | @node n hv hname hc ih =>
      intro address x w path depth hd hpos
      have hs : NodeRef.Sound ⟨address, n⟩ := ⟨hd, .node hv hname hc⟩
      obtain ⟨hchildren, hne⟩ : DrawsOnce path (walkChildren localeCompare ⟨address, n⟩ x w path (depth + 1)) ∧
          ∀ i ∈ walkChildren localeCompare ⟨address, n⟩ x w path (depth + 1), i.path ≠ path := by
        refine walkChildren_drawsOnce hs fun c hm => ?_
        obtain ⟨hmem, hchild⟩ := NodeRef.mem_shown.mp (mem_of_mem_tile hm)
        have hdistinct := (hs.child hmem).distinct
        obtain ⟨d, hd, he⟩ := List.mem_map.mp hmem
        rw [← he] at hdistinct hchild ⊢
        exact ih d hd hdistinct hchild
      rw [walk_eq]
      refine ⟨?_, ?_, ?_⟩
      · exact List.forall_mem_cons.mpr ⟨hpos, hchildren.positive⟩
      · exact List.forall_mem_cons.mpr ⟨List.prefix_rfl, hchildren.below⟩
      · rw [List.map_cons, List.nodup_cons]
        refine ⟨fun hm => ?_, hchildren.distinct⟩
        obtain ⟨i, hi, he⟩ := List.mem_map.mp hm
        exact hne i hi he

theorem NodeRef.Sound.walk_drawsOnce (hs : current.Sound) (hv : 0 < current.node.value) :
    DrawsOnce path (walk localeCompare current x w path depth) :=
  Viewer.walk_drawsOnce hs.conserves hs.distinct hv

theorem NodeRef.Sound.walkChildren_drawsOnce (hs : current.Sound) :
    DrawsOnce path (walkChildren localeCompare current x w path depth) ∧
      ∀ i ∈ walkChildren localeCompare current x w path depth, i.path ≠ path := by
  refine Viewer.walkChildren_drawsOnce hs fun c hc => ?_
  obtain ⟨hm, hpos⟩ := NodeRef.mem_shown.mp (mem_of_mem_tile hc)
  exact (hs.child hm).walk_drawsOnce hpos

theorem exists_mem_walkChildren_of {c : NodeRef} {label : String} (hs : current.Sound) (hc : current.get label = some c)
    (hpos : 0 < c.node.value)
    (h : ∀ x w path, ∃ i ∈ walk localeCompare c x w path depth, i.path = path ++ rest) :
    ∃ i ∈ walkChildren localeCompare current x w path depth, i.path = path ++ label :: rest := by
  have hshown : c ∈ current.shown localeCompare := NodeRef.mem_shown.mpr ⟨NodeRef.mem_children_of_get hc, hpos⟩
  obtain ⟨cursor, hplaced⟩ : ∃ cursor, (c, cursor) ∈ current.placed localeCompare x w := exists_mem_tile hshown
  obtain ⟨i, hi, hpath⟩ := h cursor (current.childWidth w c) (path ++ [c.node.name])
  refine ⟨i, List.mem_flatMap.mpr ⟨_, hplaced, hi⟩, ?_⟩
  rw [hpath, hs.name_of_get hc, List.append_assoc, List.singleton_append]

/-- No node with a value is left out, since the nodes above it have a value, too. -/
theorem exists_mem_walk (hs : current.Sound) (h : nodeAtPath current rest = some m) (hpos : 0 < m.node.value) :
    ∀ depth x w path, ∃ i ∈ walk localeCompare current x w path depth, i.path = path ++ rest := by
  induction rest generalizing current with
  | nil =>
      intro depth x w path
      rw [walk_eq]
      exact ⟨_, List.mem_cons_self, (List.append_nil path).symm⟩
  | cons label rest ih =>
      intro depth x w path
      rw [nodeAtPath_cons] at h
      obtain ⟨c, hc, hm⟩ := Option.bind_eq_some_iff.mp h
      have hchild := hs.child (NodeRef.mem_children_of_get hc)
      obtain ⟨i, hi, hpath⟩ : ∃ i ∈ walkChildren localeCompare current x w path (depth + 1),
          i.path = path ++ label :: rest :=
        exists_mem_walkChildren_of hs hc (hpos.trans_le (hchild.nodeAtPath hm).2) (ih hchild hm (depth + 1))
      rw [walk_eq]
      exact ⟨i, List.mem_cons_of_mem _ hi, hpath⟩

theorem exists_mem_walkChildren (hs : current.Sound) (h : nodeAtPath current rest = some m) (hpos : 0 < m.node.value)
    (hne : rest ≠ []) : ∃ i ∈ walkChildren localeCompare current x w path depth, i.path = path ++ rest := by
  cases rest with
  | nil => exact absurd rfl hne
  | cons label rest =>
      rw [nodeAtPath_cons] at h
      obtain ⟨c, hc, hm⟩ := Option.bind_eq_some_iff.mp h
      have hchild := hs.child (NodeRef.mem_children_of_get hc)
      exact exists_mem_walkChildren_of hs hc (hpos.trans_le (hchild.nodeAtPath hm).2)
        (exists_mem_walk hchild hm hpos depth)

end Once

/-! ## The layout from the root -/

section Render

variable {localeCompare : String → String → Ordering} {clientWidth : Nat} {root source : NodeRef}
  {zoomPath path : List String} {depth : Nat} {items : List Item}

theorem flameWidth_nonneg : 0 ≤ flameWidth clientWidth :=
  le_trans (by norm_num) (le_max_left 480 _)

theorem NodeRef.shown_eq_nil (h : source.node.childrenValue = 0) : source.shown localeCompare = [] := by
  rw [NodeRef.childrenValue_eq, List.sum_eq_zero_iff_forall_eq_nat] at h
  refine List.eq_nil_iff_forall_not_mem.mpr fun c hc => ?_
  obtain ⟨hm, hpos⟩ := NodeRef.mem_shown.mp hc
  exact hpos.ne' (h _ (List.mem_map_of_mem hm))

theorem NodeRef.exists_shown (h : source.node.childrenValue ≠ 0) : ∃ c, c ∈ source.shown localeCompare := by
  rw [NodeRef.childrenValue_eq, Ne, List.sum_eq_zero_iff_forall_eq_nat] at h
  push Not at h
  obtain ⟨v, hv, hne⟩ := h
  obtain ⟨c, hc, rfl⟩ := List.mem_map.mp hv
  exact ⟨c, NodeRef.mem_shown.mpr ⟨hc, Nat.pos_of_ne_zero hne⟩⟩

theorem renderFlame_eq (h : nodeAtPath root zoomPath = some source) (hr : root.node.value ≠ 0) :
    renderFlame localeCompare clientWidth root zoomPath = ⟨zoomPath, flameWidth clientWidth,
      if source.node.name = "root" then walkChildren localeCompare source 0 (flameWidth clientWidth) [] 0
      else walk localeCompare source 0 (flameWidth clientWidth) zoomPath 0⟩ := by
  simp only [renderFlame, h, hr, ↓reduceIte]
  split <;> rfl

theorem zoomPath_renderFlame : (renderFlame localeCompare clientWidth root zoomPath).zoomPath =
    if (nodeAtPath root zoomPath).isSome then zoomPath else [] := by
  unfold renderFlame
  cases nodeAtPath root zoomPath with
  | none =>
      simp only [Option.isSome_none, Bool.false_eq_true, if_false]
      split_ifs <;> rfl
  | some source =>
      simp only [Option.isSome_some, if_true]
      split_ifs <;> rfl

theorem nodeAtPath_renderFlame :
    (nodeAtPath root (renderFlame localeCompare clientWidth root zoomPath).zoomPath).isSome := by
  rw [zoomPath_renderFlame]
  split
  · assumption
  · rfl

theorem renderFlame_again :
    renderFlame localeCompare clientWidth root (renderFlame localeCompare clientWidth root zoomPath).zoomPath =
      renderFlame localeCompare clientWidth root zoomPath := by
  rw [zoomPath_renderFlame]
  split
  · rfl
  · rename_i h
    rw [Option.not_isSome_iff_eq_none] at h
    simp only [renderFlame, h]
    rfl

theorem Lays.nests (h : Lays source 0 (flameWidth clientWidth) path depth items)
    (hleads : ∀ i ∈ items, nodeAtPath root i.path = some i.current) :
    FlameLayout.Nests root source ⟨zoomPath, flameWidth clientWidth, items⟩ where
  inside := by
    intro i hi
    obtain ⟨hlow, hnonneg, hhigh⟩ := h.inside i hi
    exact ⟨hlow, hnonneg, by rwa [zero_add] at hhigh⟩
  nested := by
    intro a ha b hb
    refine List.Pairwise.forall_of_forall_of_flip (R := Item.Holds) ?_ (h.ordered.imp (·.holds))
      (h.ordered.imp (·.held)) ha hb
    intro i _ label hget
    have hlen := congrArg List.length (NodeRef.get_address hget)
    simp at hlen
  disjoint := h.ordered.imp fun hab he => .inl (hab.apart he)
  widths := h.widths
  leads := hleads

/-- A child that is drawn from a source that is not the root has a path that leads elsewhere. -/
theorem exists_astray {n : Node} {w : ℚ} (h : nodeAtPath ⟨[], n⟩ zoomPath = some source) (hne : zoomPath ≠ [])
    (hc : source.node.childrenValue ≠ 0) :
    ∃ i ∈ walkChildren localeCompare source 0 w [] 0, nodeAtPath ⟨[], n⟩ i.path ≠ some i.current := by
  obtain ⟨c, hshown⟩ : ∃ c, c ∈ source.shown localeCompare := NodeRef.exists_shown hc
  obtain ⟨x, hx⟩ : ∃ x, (c, x) ∈ source.placed localeCompare 0 w := exists_mem_tile hshown
  refine ⟨⟨c, x, source.childWidth w c, [c.node.name], 0⟩, List.mem_flatMap.mpr ⟨_, hx, ?_⟩, fun hleads => hne ?_⟩
  · dsimp only
    rw [walk_eq]
    exact List.mem_cons_self
  · obtain ⟨d, -, rfl⟩ := List.mem_map.mp (NodeRef.mem_shown.mp hshown).1
    have hlen := congrArg List.length (nodeAtPath_address hleads)
    rw [nodeAtPath_address h] at hlen
    simpa using hlen

/-- The layout draws what it should exactly when it does not take a node for the root by its label. -/
theorem renderFlame_nests_iff {n : Node} (hn : n.IsRoot) (h : nodeAtPath ⟨[], n⟩ zoomPath = some source)
    (hv : 0 < source.node.value) :
    (renderFlame localeCompare clientWidth ⟨[], n⟩ zoomPath).Nests ⟨[], n⟩ source ↔
      (zoomPath.getLast? = some "root" → source.node.childrenValue = 0) := by
  obtain ⟨hs, hle⟩ := hn.sound.nodeAtPath h
  rw [renderFlame_eq h (hv.trans_le hle).ne']
  rcases zoomPath.eq_nil_or_concat' with rfl | ⟨init, label, rfl⟩
  · cases h
    have hlays : Lays ⟨[], n⟩ 0 _ [] 0 (walkChildren localeCompare ⟨[], n⟩ 0 (flameWidth clientWidth) [] 0) :=
      hs.walkChildren_lays hv flameWidth_nonneg
    rw [if_pos hn.name]
    refine iff_of_true (hlays.nests fun i hi => ?_) (by simp)
    obtain ⟨rest, hrest, hpath⟩ := hlays.leads i hi
    rw [hpath, List.nil_append, hrest]
  · rw [hn.sound.name_nodeAtPath h, List.getLast?_concat, Option.some.injEq]
    by_cases hlabel : label = "root"
    · rw [if_pos hlabel]
      refine ⟨fun hnests _ => ?_, fun hzero => ?_⟩
      · by_contra hc
        obtain ⟨i, hi, hastray⟩ := exists_astray h (by simp) hc
        exact hastray (hnests.leads i hi)
      · have hlays : Lays source 0 _ [] 0 (walkChildren localeCompare source 0 (flameWidth clientWidth) [] 0) :=
          hs.walkChildren_lays hv flameWidth_nonneg
        refine hlays.nests fun i hi => ?_
        rw [walkChildren, NodeRef.placed, NodeRef.shown_eq_nil (hzero hlabel)] at hi
        cases hi
    · rw [if_neg hlabel]
      have hlays : Lays source 0 _ (init ++ [label]) 0
          (walk localeCompare source 0 (flameWidth clientWidth) (init ++ [label]) 0) :=
        hs.walk_lays hv flameWidth_nonneg
      refine iff_of_true (hlays.nests fun i hi => ?_) fun he => absurd he hlabel
      obtain ⟨rest, hrest, hpath⟩ := hlays.leads i hi
      rw [hpath, nodeAtPath_append, h, Option.bind_some, hrest]

/-- A layout that takes no node for the root draws the nodes under its source that have a value, each once. -/
theorem mem_paths_renderFlame {n : Node} (hn : n.IsRoot) (h : nodeAtPath ⟨[], n⟩ zoomPath = some source)
    (hv : 0 < source.node.value) (hlabel : zoomPath.getLast? ≠ some "root") :
    ((renderFlame localeCompare clientWidth ⟨[], n⟩ zoomPath).items.map (·.path)).Nodup ∧
    ∀ path, path ∈ (renderFlame localeCompare clientWidth ⟨[], n⟩ zoomPath).items.map (·.path) ↔
      zoomPath <+: path ∧ path ≠ [] ∧ ∃ m, nodeAtPath ⟨[], n⟩ path = some m ∧ 0 < m.node.value := by
  have hleads : ∀ i ∈ (renderFlame localeCompare clientWidth ⟨[], n⟩ zoomPath).items,
      nodeAtPath ⟨[], n⟩ i.path = some i.current :=
    ((renderFlame_nests_iff hn h hv).mpr fun he => absurd he hlabel).leads
  obtain ⟨hs, hle⟩ := hn.sound.nodeAtPath h
  rw [renderFlame_eq h (hv.trans_le hle).ne'] at hleads ⊢
  rcases zoomPath.eq_nil_or_concat' with rfl | ⟨init, label, rfl⟩
  · cases h
    rw [if_pos hn.name] at hleads ⊢
    obtain ⟨honce, hne⟩ : DrawsOnce [] (walkChildren localeCompare ⟨[], n⟩ 0 (flameWidth clientWidth) [] 0) ∧
        ∀ i ∈ walkChildren localeCompare ⟨[], n⟩ 0 (flameWidth clientWidth) [] 0, i.path ≠ [] :=
      hs.walkChildren_drawsOnce
    refine ⟨honce.distinct, fun path => ⟨fun hm => ?_, ?_⟩⟩
    · obtain ⟨i, hi, rfl⟩ := List.mem_map.mp hm
      exact ⟨List.nil_prefix, hne i hi, i.current, hleads i hi, honce.positive i hi⟩
    · rintro ⟨-, hpath, m, hm, hpos⟩
      exact List.mem_map.mpr (exists_mem_walkChildren hs hm hpos hpath)
  · have hname : source.node.name ≠ "root" := by
      rw [hn.sound.name_nodeAtPath h]
      simpa using hlabel
    rw [if_neg hname] at hleads ⊢
    have honce :
        DrawsOnce (init ++ [label]) (walk localeCompare source 0 (flameWidth clientWidth) (init ++ [label]) 0) :=
      hs.walk_drawsOnce hv
    refine ⟨honce.distinct, fun path => ⟨fun hm => ?_, ?_⟩⟩
    · obtain ⟨i, hi, rfl⟩ := List.mem_map.mp hm
      obtain ⟨rest, hrest⟩ := honce.below i hi
      exact ⟨⟨rest, hrest⟩, by simp [← hrest], i.current, hleads i hi, honce.positive i hi⟩
    · rintro ⟨⟨rest, rfl⟩, -, m, hm, hpos⟩
      rw [nodeAtPath_append, h, Option.bind_some] at hm
      exact List.mem_map.mpr (exists_mem_walk hs hm hpos 0 0 _ _)

end Render

end SliceProfiler.Viewer
