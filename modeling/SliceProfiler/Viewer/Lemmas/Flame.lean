import SliceProfiler.Core.Lemmas.Flame
import SliceProfiler.Viewer.Flame

/-!
# What the sample loop of the viewer sums up
-/

namespace SliceProfiler.Viewer

open Lib

/-! ## Nodes by their path -/

/-- The node that a path of labels leads to. -/
def Node.at : List String → Node → Option Node
  | [], n => some n
  | label :: path, n => (lookupKey label n.children).bind (Node.at path)

/-- The value at a path of labels; a missing node counts as zero. -/
def Node.valueAt (n : Node) (path : List String) : Nat := ((n.at path).map Node.value).getD 0

theorem Node.at_new (name : String) (path : List String) :
    ((Node.new name).at path).map Node.value = if path = [] then some 0 else none := by
  cases path <;> simp [Node.at, Node.new, Node.children, Node.value, lookupKey]

/-- The weight that a sample adds to the value of a node. -/
def shownWeight (sample : Sample) (included : Bool) : Nat := if included then sample.weightNs else 0

@[simp] theorem Node.value_count (sample : Sample) (included last : Bool) (n : Node) :
    (n.count sample included last).value = n.value + shownWeight sample included := by
  cases n; cases included <;> rfl

@[simp] theorem Node.children_count (sample : Sample) (included last : Bool) (n : Node) :
    (n.count sample included last).children = n.children := by
  cases n; rfl

@[simp] theorem Node.value_setChild (label : String) (f : Option Node → Node) (n : Node) :
    (n.setChild label f).value = n.value := by
  cases n; rfl

@[simp] theorem Node.children_setChild (label : String) (f : Option Node → Node) (n : Node) :
    (n.setChild label f).children = upsertLast label f n.children := by
  cases n; rfl

/-- A walk adds to the value at the prefixes of its path, and changes no other value. -/
theorem Node.at_visit (sample : Sample) (included : Bool) (frames : List Frame) (n : Node)
    (path : List String) : ((n.visit sample included frames).at path).map Node.value =
      if path <+: frames.map (·.label) then some (n.valueAt path + shownWeight sample included)
      else (n.at path).map Node.value := by
  induction frames generalizing n path with
  | nil => cases path <;> simp [Node.visit, Node.at, Node.valueAt]
  | cons frame rest ih =>
      cases path with
      | nil => simp [Node.visit, Node.at, Node.valueAt]
      | cons label path =>
          simp only [Node.visit, Node.at, Node.valueAt, Node.children_setChild, Node.children_count,
            lookupKey_upsertLast, List.map_cons, List.cons_prefix_cons]
          by_cases hl : label = frame.label
          · subst hl
            cases hc : lookupKey frame.label n.children with
            | some child => simpa [Node.valueAt] using ih child path
            | none =>
                have := ih (.new frame.label) path
                rw [Node.valueAt, Node.at_new] at this
                by_cases hp : path = []
                · simpa [hp] using this
                · simpa [hp] using this
          · simp [hl]

/-- No node has two children with one label. -/
inductive Node.Distinct : Node → Prop
  | node {n : Node} : (n.children.map Prod.fst).Nodup → (∀ c ∈ n.children, Node.Distinct c.2) → Node.Distinct n

theorem Node.Distinct.new (name : String) : (Node.new name).Distinct :=
  .node List.nodup_nil (by simp [Node.new, Node.children])

theorem Node.Distinct.visit {n : Node} (h : n.Distinct) (sample : Sample) (included : Bool)
    (frames : List Frame) : (n.visit sample included frames).Distinct := by
  induction frames generalizing n with
  | nil =>
      cases h with
      | node hk hc => exact .node (by simpa [Node.visit] using hk) (by simpa [Node.visit] using hc)
  | cons frame rest ih =>
      cases h with
      | node hk hc =>
          constructor
          · simp only [Node.visit, Node.children_setChild, Node.children_count, keys_upsertLast]
            split
            · exact hk
            · rename_i hn
              exact (@List.nodup_middle _ _ _ []).mpr (by simpa using ⟨by simpa using hn, hk⟩)
          · simp only [Node.visit, Node.children_setChild, Node.children_count]
            intro c hm
            rcases mem_upsertLast hm with rfl | hm
            · apply ih
              cases hl : lookupKey frame.label n.children with
              | none => exact .new _
              | some child => exact hc _ (lookupKey_mem hl)
            · exact hc c hm

/-! ## What the tree conserves -/

@[simp] theorem Node.name_count (sample : Sample) (included last : Bool) (n : Node) :
    (n.count sample included last).name = n.name := by
  cases n; rfl

@[simp] theorem Node.name_setChild (label : String) (f : Option Node → Node) (n : Node) :
    (n.setChild label f).name = n.name := by
  cases n; rfl

@[simp] theorem Node.selfValue_count (sample : Sample) (included last : Bool) (n : Node) :
    (n.count sample included last).selfValue = n.selfValue + if last then shownWeight sample included else 0 := by
  cases n; cases included <;> cases last <;> rfl

@[simp] theorem Node.selfValue_setChild (label : String) (f : Option Node → Node) (n : Node) :
    (n.setChild label f).selfValue = n.selfValue := by
  cases n; rfl

@[simp] theorem Node.name_visit (sample : Sample) (included : Bool) (frames : List Frame) (n : Node) :
    (n.visit sample included frames).name = n.name := by
  cases frames <;> simp [Node.visit]

@[simp] theorem Node.value_visit (sample : Sample) (included : Bool) (frames : List Frame) (n : Node) :
    (n.visit sample included frames).value = n.value + shownWeight sample included := by
  cases frames <;> simp [Node.visit]

/-- The sum of the values of the children. -/
def Node.childrenValue (n : Node) : Nat := (n.children.map fun c => c.2.value).sum

/-- Each node has its own value and those of its children, which stand under their labels. -/
inductive Node.Conserves : Node → Prop
  | node {n : Node} : n.value = n.selfValue + n.childrenValue → (∀ c ∈ n.children, c.2.name = c.1) →
      (∀ c ∈ n.children, Node.Conserves c.2) → Node.Conserves n

theorem Node.Conserves.new (name : String) : (Node.new name).Conserves :=
  .node rfl (by simp [Node.new, Node.children]) (by simp [Node.new, Node.children])

theorem Node.childrenValue_visit_cons (sample : Sample) (included : Bool) (frame : Frame) (rest : List Frame)
    (n : Node) : (n.visit sample included (frame :: rest)).childrenValue =
      n.childrenValue + shownWeight sample included := by
  have hsum := sum_upsertLast Node.value frame.label
    (fun child => Node.visit sample included rest (child.getD (.new frame.label))) n.children
  rw [Node.value_visit] at hsum
  simp only [Node.visit, Node.childrenValue, Node.children_setChild, Node.children_count]
  cases hl : lookupKey frame.label n.children with
  | none =>
      rw [hl] at hsum
      simpa [Node.new, Node.value] using hsum
  | some child =>
      rw [hl] at hsum
      simp only [Option.map_some, Option.getD_some] at hsum
      omega

theorem Node.Conserves.visit {n : Node} (h : n.Conserves) (sample : Sample) (included : Bool)
    (frames : List Frame) : (n.visit sample included frames).Conserves := by
  induction frames generalizing n with
  | nil =>
      cases h with
      | node hv hname hc =>
          refine .node ?_ (by simpa [Node.visit] using hname) (by simpa [Node.visit] using hc)
          simp only [Node.visit, Node.childrenValue, Node.value_count, Node.selfValue_count,
            Node.children_count] at hv ⊢
          simp only [↓reduceIte]
          omega
  | cons frame rest ih =>
      cases h with
      | node hv hname hc =>
          -- the child on the path is a new one or an old one, and both carry their label
          have hchild : ∀ c ∈ (n.visit sample included (frame :: rest)).children,
              (c.2.name = c.1 ∧ c.2.Conserves) := by
            simp only [Node.visit, Node.children_setChild, Node.children_count]
            intro c hm
            rcases mem_upsertLast hm with rfl | hm
            · cases hl : lookupKey frame.label n.children with
              | none => exact ⟨Node.name_visit .., ih (.new _)⟩
              | some child =>
                  have hm := lookupKey_mem hl
                  exact ⟨(Node.name_visit ..).trans (hname _ hm), ih (hc _ hm)⟩
            · exact ⟨hname c hm, hc c hm⟩
          refine .node ?_ (fun c hm => (hchild c hm).1) fun c hm => (hchild c hm).2
          rw [Node.childrenValue_visit_cons, Node.value_visit, hv]
          simp [Node.visit]
          omega

/-- The root of the sample loop has no value of its own. -/
structure Node.IsRoot (n : Node) : Prop where
  distinct : n.Distinct
  conserves : n.Conserves
  name : n.name = "root"
  selfValue : n.selfValue = 0

theorem Node.IsRoot.visit {n : Node} (h : n.IsRoot) (sample : Sample) (included : Bool) (frame : Frame)
    (rest : List Frame) : (n.visit sample included (frame :: rest)).IsRoot :=
  ⟨h.distinct.visit .., h.conserves.visit .., by simp [h.name], by simp [Node.visit, h.selfValue]⟩

theorem aggregateSample_isRoot {s : State} {p : Profile} {ids : Finset Nat} {a : Aggregation} (h : a.root.IsRoot)
    (sample : Sample) : (s.aggregateSample p ids a sample).root.IsRoot := by
  unfold State.aggregateSample
  split
  · exact h
  · split
    · exact h
    · rename_i stack _
      cases hf : stack.frames.findIdx? (s.startsAt p) with
      | none => exact h
      | some start =>
          have hlt : start < stack.frames.length := (List.findIdx?_eq_some_iff_getElem.mp hf).1
          simp only [List.drop_eq_getElem_cons hlt]
          exact h.visit ..

theorem aggregate_isRoot (s : State) (p : Profile) (ids : Finset Nat) : (s.aggregate p ids).root.IsRoot := by
  unfold State.aggregate
  induction p.samples using List.reverseRecOn with
  | nil => exact ⟨.new _, .new _, rfl, rfl⟩
  | append_singleton samples sample ih =>
      rw [List.foldl_append]
      exact aggregateSample_isRoot ih sample

/-! ## The loop over resolved samples -/

variable {s : State} {p : Profile} {q : Query} {ids : Finset Nat}

/-- The viewer shows what the query selects: the same function and the same metric. -/
structure State.Shows (s : State) (q : Query) : Prop where
  function : s.functionId = q.functionId
  metric : s.metric = q.metric

theorem State.Shows.calculate (h : s.Shows q) (p : Profile) : (s.calculate p).2.Shows q := by
  obtain ⟨hfunction, hmetric⟩ := h
  constructor
  · rw [← hfunction]
    simp only [State.calculate, State.syncLatencyWindow]
    split <;> rfl
  · rw [← hmetric]
    simp only [State.calculate, State.syncLatencyWindow]
    split <;> rfl

theorem metricIncludes_eq (h : s.Shows q) (state : ExecutionState) :
    s.metricIncludes state = q.metric.includes state := by
  rw [State.metricIncludes, h.metric]
  cases q.metric <;> cases state <;> rfl

theorem selectedName_eq (hw : p.WellFormed) (h : s.Shows q) : s.selectedName p = q.selectedName p := by
  rw [State.selectedName, Query.selectedName, h.function]
  congr 1
  have hn : ((p.functions.map fun f => (f.id, f)).map Prod.fst).Nodup := by
    simpa [Function.comp_def] using hw.functionIds
  apply Option.ext
  intro f
  simp only [Map.lookup_ofList hn, find_key_eq_some hw.functionIds, List.mem_map, Prod.mk.injEq]
  constructor
  · rintro ⟨g, hg, he, rfl⟩; exact ⟨hg, he⟩
  · rintro ⟨hg, he⟩; exact ⟨f, hg, he, rfl⟩

theorem startsAt_eq (hw : p.WellFormed) (h : s.Shows q) : s.startsAt p = q.startsAt (q.selectedName p) := by
  funext f
  rw [State.startsAt, Query.startsAt, selectedName_eq hw h, h.function]

/-- The samples that the loop inserts, whatever their state. -/
def visits (q : Query) (name : Option String) (ids : Finset Nat) (r : ResolvedSample) : Bool :=
  decide (r.invocationId ∈ ids) && r.frames.any (q.startsAt name)

theorem contributes_eq (q : Query) (name : Option String) (ids : Finset Nat) (r : ResolvedSample) :
    q.contributes name ids r = (visits q name ids r && q.metric.includes r.state) := by
  simp only [Query.contributes, visits, Bool.and_assoc, Bool.and_comm (q.metric.includes r.state)]

/-- The path of a sample with the weight that it adds to the values on it. -/
def shownEntry (q : Query) (name : Option String) (r : ResolvedSample) : List String × Nat :=
  (q.flamePath name r, if q.metric.includes r.state then r.weightNs else 0)

theorem aggregateSample_root (hw : p.WellFormed) (h : s.Shows q) (a : Aggregation) {sample : Sample}
    (hk : ∃ k ∈ p.stacks, k.id = sample.stackId) : (s.aggregateSample p ids a sample).root =
      if visits q (q.selectedName p) ids (resolve p.stacks sample) then
        a.root.visit sample (q.metric.includes sample.state)
          (q.shownFrames (q.selectedName p) (resolve p.stacks sample))
      else a.root := by
  obtain ⟨k, hm, he⟩ := hk
  obtain ⟨hl, hf⟩ := lookup_stack hw.stackIds hm
  rw [he] at hl hf
  simp only [State.aggregateSample, hl, startsAt_eq hw h, metricIncludes_eq h, visits,
    Query.shownFrames, resolve, hf]
  by_cases hs : sample.invocationId ∈ ids
  · cases hi : k.frames.findIdx? (q.startsAt (q.selectedName p)) with
    | none =>
        have hany : k.frames.any (q.startsAt (q.selectedName p)) = false := by
          rw [List.any_eq_false]
          simpa using List.findIdx?_eq_none_iff.mp hi
        simp [hs, hany]
    | some start =>
        have hany : k.frames.any (q.startsAt (q.selectedName p)) = true := by
          by_contra hc
          rw [Bool.not_eq_true, List.any_eq_false] at hc
          rw [List.findIdx?_eq_none_iff.mpr (by simpa using hc)] at hi
          cases hi
        simp [hs, hany, drop_findIdx? hi]
  · simp [hs]

/-- The values of the tree are the weights of the visited samples that the metric includes. -/
structure Node.SumsOver (n : Node) (q : Query) (name : Option String) (samples : List ResolvedSample) : Prop where
  distinct : n.Distinct
  value : ∀ path, (n.at path).map Node.value =
    if path = [] ∨ Reached path (samples.map (shownEntry q name)) then
      some (weightUnder path (samples.map (shownEntry q name)))
    else none

theorem Node.SumsOver.valueAt {n : Node} {name : Option String} {samples : List ResolvedSample}
    (h : n.SumsOver q name samples) (path : List String) :
    n.valueAt path = weightUnder path (samples.map (shownEntry q name)) := by
  rw [Node.valueAt, h.value]
  split
  · rfl
  · rename_i hr
    rw [weightUnder_of_not_reached (not_or.mp hr).2]
    rfl

theorem Node.SumsOver.concat {n : Node} {name : Option String} {samples : List ResolvedSample}
    (h : n.SumsOver q name samples) (ks : List Stack) (sample : Sample) :
    (n.visit sample (q.metric.includes sample.state) (q.shownFrames name (resolve ks sample))).SumsOver q name
      (samples ++ [resolve ks sample]) := by
  constructor
  · exact h.distinct.visit _ _ _
  · intro path
    rw [Node.at_visit, h.valueAt, h.value]
    simp only [List.map_append, List.map_singleton, reached_concat, weightUnder_concat]
    have hw : shownWeight sample (q.metric.includes sample.state) =
        (shownEntry q name (resolve ks sample)).2 := rfl
    rw [hw]
    by_cases hp : path <+: (q.shownFrames name (resolve ks sample)).map (·.label)
    · have hp' : path <+: (shownEntry q name (resolve ks sample)).1 := hp
      simp [hp, hp']
    · have hp' : ¬ path <+: (shownEntry q name (resolve ks sample)).1 := hp
      simp [hp, hp']

theorem aggregate_sumsOver (hw : p.WellFormed) (h : s.Shows q) (ids : Finset Nat) :
    (s.aggregate p ids).root.SumsOver q (q.selectedName p)
      (p.resolvedSamples.filter (visits q (q.selectedName p) ids)) := by
  have hk := hw.knownStacks.known
  unfold State.aggregate Profile.resolvedSamples
  revert hk
  induction p.samples using List.reverseRecOn with
  | nil => exact fun _ => ⟨.new _, by simp [Node.at_new]⟩
  | append_singleton samples sample ih =>
      intro hk
      have ih := ih fun k hm => hk k (List.mem_append_left _ hm)
      rw [List.foldl_append, List.foldl_cons, List.foldl_nil,
        aggregateSample_root hw h _ (hk sample (by simp)), List.map_append, List.filter_append]
      cases hv : visits q (q.selectedName p) ids (resolve p.stacks sample) with
      | true => simpa [hv] using ih.concat p.stacks sample
      | false => simpa [hv] using ih

theorem weightUnder_shown (ids : Finset Nat) (path : List String) :
    weightUnder path ((p.resolvedSamples.filter (visits q (q.selectedName p) ids)).map
      (shownEntry q (q.selectedName p))) = p.weight q ids (p.goesThrough q path) := by
  simp only [weightUnder, List.filter_map, List.map_map, Profile.weight, Profile.contributing,
    List.filter_filter, contributes_eq]
  rw [show (Prod.snd ∘ shownEntry q (q.selectedName p)) =
    fun r => if q.metric.includes r.state then r.weightNs else 0 from rfl, sum_ite, List.filter_filter]
  congr 2
  apply List.filter_congr
  intro r _
  rw [Bool.and_left_comm, Bool.and_comm (q.metric.includes r.state)]
  rfl

end SliceProfiler.Viewer
