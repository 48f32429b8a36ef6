import SliceProfiler.Lib.Tiles
import SliceProfiler.Viewer.Flame

/-!
# Layout of the flame graph

The rectangles of `renderFlame` from the left to the right, with the paths that a click on them zooms to. The order of
two labels is `localeCompare`, which depends on the locale of the browser.
-/

namespace SliceProfiler.Viewer

open Lib

/-- A node object. Its address tells it from other objects with the same contents. -/
structure NodeRef where
  address : List String
  node : Node

/-- `children.get(label)` -/
def NodeRef.get (n : NodeRef) (label : String) : Option NodeRef :=
  (lookupKey label n.node.children).map (NodeRef.mk (n.address ++ [label]))

/-- `children.values()` -/
def NodeRef.children (n : NodeRef) : List NodeRef :=
  n.node.children.map fun c => ⟨n.address ++ [c.1], c.2⟩

def nodeAtPath (root : NodeRef) (path : List String) : Option NodeRef :=
  path.foldl (fun current name => current.bind (·.get name)) (some root)

structure Item where
  current : NodeRef
  x : ℚ
  w : ℚ
  path : List String
  depth : Nat

variable (localeCompare : String → String → Ordering)

/-- The larger value first, then the smaller label. -/
def comesFirst (a b : NodeRef) : Bool :=
  b.node.value < a.node.value ||
    (b.node.value == a.node.value && localeCompare a.node.name b.node.name != .gt)

def NodeRef.shown (n : NodeRef) : List NodeRef :=
  (n.children.filter fun child => 0 < child.node.value).mergeSort (comesFirst localeCompare)

/-- `w * (child.value / current.value)` -/
def NodeRef.childWidth (current : NodeRef) (w : ℚ) (child : NodeRef) : ℚ :=
  w * ((child.node.value : ℚ) / current.node.value)

/-- The children that `walk` goes on with, each with the position of the cursor. -/
def NodeRef.placed (current : NodeRef) (x w : ℚ) : List (NodeRef × ℚ) :=
  tile (current.childWidth w) x (current.shown localeCompare)

theorem mem_children_of_mem_placed {n : NodeRef} {x w : ℚ} {c : NodeRef × ℚ} (h : c ∈ n.placed localeCompare x w) :
    c.1 ∈ n.children := by
  have hs : c.1 ∈ n.shown localeCompare := mem_of_mem_tile h
  exact (List.mem_filter.mp (List.mem_mergeSort.mp hs)).1

theorem sizeOf_of_mem_children {n c : NodeRef} (h : c ∈ n.children) : sizeOf c.node < sizeOf n.node := by
  obtain ⟨⟨label, child⟩, hm, rfl⟩ := List.mem_map.mp h
  rcases hn : n.node with ⟨name, value, selfValue, sampleCount, invocations, children, cpu, off⟩
  rw [hn] at hm
  have := List.sizeOf_lt_of_mem hm
  simp only [Node.children, Prod.mk.sizeOf_spec, Node.mk.sizeOf_spec] at this ⊢
  omega

def walk (current : NodeRef) (x w : ℚ) (path : List String) (depth : Nat) : List Item :=
  ⟨current, x, w, path, depth⟩ ::
    (current.placed localeCompare x w).attach.flatMap fun ⟨(child, cursor), _⟩ =>
      walk child cursor (current.childWidth w child) (path ++ [child.node.name]) (depth + 1)
termination_by sizeOf current.node
decreasing_by exact sizeOf_of_mem_children (mem_children_of_mem_placed localeCompare ‹_›)

def flameWidth (clientWidth : Nat) : ℚ := max 480 (if clientWidth = 0 then 1000 else clientWidth)

/-- What `renderFlame` leaves: the path that it zooms to, and what it draws on the width. -/
structure FlameLayout where
  zoomPath : List String
  width : ℚ
  items : List Item

def renderFlame (clientWidth : Nat) (root : NodeRef) (zoomPath : List String) : FlameLayout :=
  let width := flameWidth clientWidth
  let (zoomPath, source) :=
    match nodeAtPath root zoomPath with
    | some source => (zoomPath, source)
    | none => ([], root)
  if root.node.value = 0 then ⟨zoomPath, width, []⟩
  else if source.node.name = "root" then
    ⟨zoomPath, width, (source.placed localeCompare 0 width).flatMap fun (child, cursor) =>
      walk localeCompare child cursor (source.childWidth width child) [child.node.name] 0⟩
  else ⟨zoomPath, width, walk localeCompare source 0 width zoomPath 0⟩

/-! ## Nested rectangles -/

/-- The children of `a` are drawn inside it. -/
def Item.Holds (a b : Item) : Prop :=
  ∀ label, a.current.get label = some b.current → a.x ≤ b.x ∧ b.x + b.w ≤ a.x + a.w

/-- What a reader expects of the rectangles under `source`. -/
structure FlameLayout.Nests (root source : NodeRef) (l : FlameLayout) : Prop where
  inside : ∀ i ∈ l.items, 0 ≤ i.x ∧ 0 ≤ i.w ∧ i.x + i.w ≤ l.width
  nested : ∀ a ∈ l.items, ∀ b ∈ l.items, a.Holds b
  disjoint : l.items.Pairwise fun a b => a.depth = b.depth → a.x + a.w ≤ b.x ∨ b.x + b.w ≤ a.x
  widths : ∀ i ∈ l.items, i.w = l.width * ((i.current.node.value : ℚ) / source.node.value)
  leads : ∀ i ∈ l.items, nodeAtPath root i.path = some i.current

end SliceProfiler.Viewer
