import SliceProfiler.Core.Lemmas.Query
import SliceProfiler.Lib.Paths

/-!
# The flame tree as sums over paths
-/

namespace SliceProfiler

open Lib

/-! ## Nodes by their path -/

def FlameNode.name : FlameNode → String
  | .mk name _ _ => name

def FlameNode.valueNs : FlameNode → Nat
  | .mk _ valueNs _ => valueNs

def FlameNode.children : FlameNode → List FlameNode
  | .mk _ _ children => children

/-- The node that a path of names leads to. -/
def FlameNode.at : List String → FlameNode → Option FlameNode
  | [], n => some n
  | name :: path, n => (n.children.find? fun c => c.name = name).bind (FlameNode.at path)

/-- The value at a path of names; an absent node counts as zero. -/
def FlameNode.valueAt (n : FlameNode) (path : List String) : Nat :=
  ((n.at path).map FlameNode.valueNs).getD 0

/-- Siblings stand by strictly increasing names, everywhere in the tree. -/
inductive FlameNode.Ordered : FlameNode → Prop
  | node {name : String} {valueNs : Nat} {children : List FlameNode} :
      (children.map FlameNode.name).Pairwise (· < ·) → (∀ c ∈ children, FlameNode.Ordered c) →
      FlameNode.Ordered (.mk name valueNs children)

def TreeBuilder.valueAt : List String → TreeBuilder → Option Nat
  | [], .mk valueNs _ => some valueNs
  | name :: path, .mk _ children => (lookupKey name children).bind (TreeBuilder.valueAt path)

inductive TreeBuilder.Ordered : TreeBuilder → Prop
  | node {valueNs : Nat} {children : List (String × TreeBuilder)} :
      KeysIncrease children → (∀ c ∈ children, TreeBuilder.Ordered c.2) →
      TreeBuilder.Ordered (.mk valueNs children)

/-! ## Insertion -/

theorem TreeBuilder.Ordered.default : TreeBuilder.default.Ordered :=
  .node List.Pairwise.nil (by simp)

theorem TreeBuilder.valueAt_default (path : List String) :
    TreeBuilder.default.valueAt path = if path = [] then some 0 else none := by
  cases path <;> simp [TreeBuilder.default, valueAt, lookupKey]

theorem TreeBuilder.Ordered.insert {t : TreeBuilder} (h : t.Ordered) (frames : List Frame) (weightNs : Nat) :
    (t.insert frames weightNs).Ordered := by
  induction frames generalizing t with
  | nil =>
      cases h with
      | node hk hc => exact .node hk hc
  | cons frame rest ih =>
      cases h with
      | @node valueNs children hk hc =>
          refine .node (hk.upsert _ _) ?_
          intro c hm
          rcases mem_upsert hk hm with rfl | hm
          · apply ih
            cases hl : lookupKey frame.label children with
            | none => exact .default
            | some child => exact hc _ (lookupKey_mem hl)
          · exact hc c hm

/-- An insertion adds the weight at the prefixes of the inserted path, and changes nothing else. -/
theorem TreeBuilder.valueAt_insert {t : TreeBuilder} (h : t.Ordered) (frames : List Frame) (weightNs : Nat)
    (path : List String) : (t.insert frames weightNs).valueAt path =
      if path <+: frames.map (·.label) then some (satAdd64 ((t.valueAt path).getD 0) weightNs)
      else t.valueAt path := by
  induction frames generalizing t path with
  | nil =>
      obtain ⟨valueNs, children⟩ := t
      cases path <;> simp [TreeBuilder.insert, valueAt]
  | cons frame rest ih =>
      cases h with
      | @node valueNs children hk hc =>
          cases path with
          | nil => simp [TreeBuilder.insert, valueAt]
          | cons name path =>
              simp only [TreeBuilder.insert, valueAt, lookupKey_upsert hk, List.map_cons,
                List.cons_prefix_cons]
              by_cases hn : name = frame.label
              · subst hn
                cases hl : lookupKey frame.label children with
                | some child => simpa using ih (hc _ (lookupKey_mem hl)) path
                | none =>
                    have := ih .default path
                    rw [valueAt_default] at this
                    by_cases hp : path = []
                    · simpa [hp] using this
                    · simpa [hp] using this
              · simp [hn]

/-! ## The finished tree -/

theorem TreeBuilder.finishChildren_eq (children : List (String × TreeBuilder)) :
    TreeBuilder.finishChildren children = children.map fun c => c.2.finish c.1 := by
  induction children with
  | nil => rfl
  | cons c children ih => simp [finishChildren, ih]

theorem TreeBuilder.name_finish (t : TreeBuilder) (name : String) : (t.finish name).name = name := by
  cases t; rfl

theorem TreeBuilder.find_finishChildren (name : String) (children : List (String × TreeBuilder)) :
    (TreeBuilder.finishChildren children).find? (fun c => c.name = name) =
      (lookupKey name children).map fun c => c.finish name := by
  induction children with
  | nil => rfl
  | cons c children ih =>
      obtain ⟨k, t⟩ := c
      by_cases h : name = k
      · simp [finishChildren, lookupKey, name_finish, h]
      · simp [finishChildren, lookupKey, name_finish, h, Ne.symm h, ih]

theorem TreeBuilder.at_finish (t : TreeBuilder) (name : String) (path : List String) :
    ((t.finish name).at path).map FlameNode.valueNs = t.valueAt path := by
  induction path generalizing t name with
  | nil => cases t; rfl
  | cons k path ih =>
      obtain ⟨valueNs, children⟩ := t
      simp only [finish, FlameNode.at, FlameNode.children, find_finishChildren, valueAt]
      cases lookupKey k children with
      | none => rfl
      | some child => exact ih child k

theorem TreeBuilder.Ordered.finish {t : TreeBuilder} (h : t.Ordered) (name : String) :
    (t.finish name).Ordered := by
  induction h generalizing name with
  | @node valueNs children hk hc ih =>
      simp only [TreeBuilder.finish, finishChildren_eq]
      constructor
      · have : (children.map fun c => c.2.finish c.1).map FlameNode.name = children.map Prod.fst := by
          simp [Function.comp_def, name_finish]
        rw [this]; exact hk
      · simp only [List.mem_map, forall_exists_index, and_imp, forall_apply_eq_imp_iff₂]
        exact fun c hm => ih c hm c.1

/-! ## The samples that contribute to a flame tree -/

/-- The sample belongs to a selected invocation, the metric includes its state, and its stack has a frame
at which the flame graph may start. -/
def Query.contributes (q : Query) (name : Option String) (ids : Finset Nat) (s : ResolvedSample) : Bool :=
  decide (s.invocationId ∈ ids) && q.metric.includes s.state && s.frames.any (q.startsAt name)

/-- The frames from the first one at which the flame graph may start to the leaf. -/
def Query.shownFrames (q : Query) (name : Option String) (s : ResolvedSample) : List Frame :=
  s.frames.dropWhile fun f => !q.startsAt name f

def Query.flamePath (q : Query) (name : Option String) (s : ResolvedSample) : List String :=
  (q.shownFrames name s).map (·.label)

theorem drop_findIdx? {α : Type} {c : α → Bool} {l : List α} {i : Nat} (h : l.findIdx? c = some i) :
    l.drop i = l.dropWhile fun a => !c a := by
  induction l generalizing i with
  | nil => cases h
  | cons a l ih =>
      rw [List.findIdx?_cons] at h
      cases hc : c a with
      | true =>
          simp only [hc, ↓reduceIte, Option.some.injEq] at h
          subst h
          simp [hc]
      | false =>
          simp only [hc, Bool.false_eq_true, ↓reduceIte, Option.map_eq_some_iff] at h
          obtain ⟨j, hj, rfl⟩ := h
          simpa [hc] using ih hj

variable {q : Query} {name : Option String} {ids : Finset Nat}

theorem addResolved_of_contributes {s : ResolvedSample} (h : q.contributes name ids s = true)
    (t : SampleTotals) : t.addResolved q name ids s =
      ⟨t.tree.insert (q.shownFrames name s) s.weightNs,
        if s.state = .onCpu then satAdd64 t.sampledCpuNs s.weightNs else t.sampledCpuNs,
        if s.state = .offCpu then satAdd64 t.offCpuNs s.weightNs else t.offCpuNs⟩ := by
  simp only [Query.contributes, Bool.and_eq_true, decide_eq_true_eq, List.any_eq_true] at h
  obtain ⟨⟨hs, hm⟩, f, hf, hc⟩ := h
  simp only [SampleTotals.addResolved, hs, hm, not_true_eq_false, or_self, ↓reduceIte, SampleTotals.add]
  cases hi : s.frames.findIdx? (q.startsAt name) with
  | none => rw [List.findIdx?_eq_none_iff.mp hi f hf] at hc; cases hc
  | some start =>
      simp only [drop_findIdx? hi, Query.shownFrames]
      cases s.state <;> rfl

theorem addResolved_of_not_contributes {s : ResolvedSample} (h : q.contributes name ids s = false)
    (t : SampleTotals) : t.addResolved q name ids s = t := by
  unfold SampleTotals.addResolved
  split
  · rfl
  · rename_i hc
    simp only [not_or, not_not] at hc
    simp only [Query.contributes, hc, decide_true, Bool.and_self, Bool.true_and, List.any_eq_false,
      Bool.not_eq_true] at h
    simp only [SampleTotals.add, List.findIdx?_eq_none_iff.mpr h]

/-! ## The totals of the sample loop -/

/-- A contributing sample as a weighted path. -/
def Query.entry (q : Query) (name : Option String) (s : ResolvedSample) : List String × Nat :=
  (q.flamePath name s, s.weightNs)

/-- The tree and the two counters after the contributing samples. -/
structure SampleTotals.SumsOver (t : SampleTotals) (q : Query) (name : Option String)
    (samples : List ResolvedSample) : Prop where
  ordered : t.tree.Ordered
  value : ∀ path, t.tree.valueAt path =
    if path = [] ∨ Reached path (samples.map (q.entry name)) then
      some (min (weightUnder path (samples.map (q.entry name))) u64Max)
    else none
  cpu : t.sampledCpuNs = min ((samples.filter fun s => s.state = .onCpu).map (·.weightNs)).sum u64Max
  off : t.offCpuNs = min ((samples.filter fun s => s.state = .offCpu).map (·.weightNs)).sum u64Max

theorem SampleTotals.SumsOver.nil : SampleTotals.SumsOver ⟨.default, 0, 0⟩ q name [] where
  ordered := .default
  value path := by simp [TreeBuilder.valueAt_default]
  cpu := rfl
  off := rfl

theorem SampleTotals.SumsOver.concat {t : SampleTotals} {samples : List ResolvedSample}
    (h : t.SumsOver q name samples) {s : ResolvedSample} (hs : q.contributes name ids s = true) :
    (t.addResolved q name ids s).SumsOver q name (samples ++ [s]) := by
  rw [addResolved_of_contributes hs]
  constructor
  · exact h.ordered.insert _ _
  · intro path
    rw [TreeBuilder.valueAt_insert h.ordered, h.value]
    simp only [List.map_append, List.map_singleton, reached_concat, weightUnder_concat]
    by_cases hp : path <+: (q.shownFrames name s).map (·.label)
    · have hp' : path <+: (q.entry name s).1 := hp
      simp only [hp, hp', ↓reduceIte, or_true]
      split
      · exact congrArg some saturatingAdd_min
      · rename_i hr
        simp [weightUnder_of_not_reached (not_or.mp hr).2, saturatingAdd, Query.entry]
    · have hp' : ¬ path <+: (q.entry name s).1 := hp
      simp [hp, hp']
  · cases hst : s.state with
    | onCpu => simp [hst, h.cpu, saturatingAdd_min]
    | offCpu => simp [hst, h.cpu]
  · cases hst : s.state with
    | onCpu => simp [hst, h.off]
    | offCpu => simp [hst, h.off, saturatingAdd_min]

theorem sumsOver_foldl (samples : List ResolvedSample) :
    (samples.foldl (SampleTotals.addResolved q name ids) ⟨.default, 0, 0⟩).SumsOver q name
      (samples.filter (q.contributes name ids)) := by
  induction samples using List.reverseRecOn with
  | nil => exact .nil
  | append_singleton samples s ih =>
      rw [List.foldl_append, List.filter_append, List.foldl_cons, List.foldl_nil]
      cases hs : q.contributes name ids s with
      | true => simpa [hs] using ih.concat hs
      | false => simpa [hs, addResolved_of_not_contributes hs] using ih

/-! ## The tree of a query -/

/-- The tree that the query builds for the selected ids. -/
def flameRoot (p : Profile) (q : Query) (ids : Finset Nat) : Except QueryError FlameNode := do
  let totals ← sampleTotals q (q.selectedName p) ids (Map.ofList (p.stacks.map fun k => (k.id, k)))
    ⟨.default, 0, 0⟩ p.samples
  .ok (if ids = ∅ then .empty else totals.tree.finish "root")

/-- The samples that contribute to the tree for the selected ids. -/
def Profile.contributing (p : Profile) (q : Query) (ids : Finset Nat) : List ResolvedSample :=
  p.resolvedSamples.filter (q.contributes (q.selectedName p) ids)

/-- The totals of the sample loop. -/
def Profile.totals (p : Profile) (q : Query) (ids : Finset Nat) : SampleTotals :=
  p.resolvedSamples.foldl (SampleTotals.addResolved q (q.selectedName p) ids) ⟨.default, 0, 0⟩

variable {p : Profile} {r : QueryResult}

theorem totals_sumsOver (p : Profile) (q : Query) (ids : Finset Nat) :
    (p.totals q ids).SumsOver q (q.selectedName p) (p.contributing q ids) := sumsOver_foldl _

theorem totals_empty (p : Profile) (q : Query) : p.totals q ∅ = ⟨.default, 0, 0⟩ := by
  unfold Profile.totals
  induction p.resolvedSamples with
  | nil => rfl
  | cons s samples ih => simpa [SampleTotals.addResolved] using ih

theorem finish_totals (p : Profile) (q : Query) (ids : Finset Nat) :
    (if ids = ∅ then .empty else (p.totals q ids).tree.finish "root") =
      (p.totals q ids).tree.finish "root" := by
  split
  · rename_i h
    rw [h, totals_empty]
    rfl
  · rfl

theorem flameRoot_eq (hk : p.KnownStacks) (q : Query) (ids : Finset Nat) :
    flameRoot p q ids = .ok ((p.totals q ids).tree.finish "root") := by
  rw [← finish_totals]
  simp only [flameRoot, sampleTotals_eq hk.ids hk.known]
  rfl

/-- The tree and the two counters of a query come from one loop over the samples. -/
theorem executeQuery_totals (hk : p.KnownStacks) (h : executeQuery p q = .ok r) :
    r.selectedInvocationIds = (selected p q).map (·.id) ∧
      r.root = (p.totals q r.selectedInvocationIds.toFinset).tree.finish "root" ∧
      r.sampledCpuNs = (p.totals q r.selectedInvocationIds.toFinset).sampledCpuNs ∧
      r.offCpuNs = (p.totals q r.selectedInvocationIds.toFinset).offCpuNs := by
  simp only [executeQuery, sampleTotals_eq hk.ids hk.known, bind_eq_ok] at h
  obtain ⟨_, -, _, -, t, ht, hr⟩ := h
  cases ht
  cases hr
  exact ⟨rfl, finish_totals p q _, rfl, rfl⟩

theorem executeQuery_root (hk : p.KnownStacks) (h : executeQuery p q = .ok r) :
    flameRoot p q r.selectedInvocationIds.toFinset = .ok r.root := by
  rw [flameRoot_eq hk, (executeQuery_totals hk h).2.1]

/-! ## Weights -/

/-- The total weight of the contributing samples with the property `c`. -/
def Profile.weight (p : Profile) (q : Query) (ids : Finset Nat) (c : ResolvedSample → Bool) : Nat :=
  (((p.contributing q ids).filter c).map (·.weightNs)).sum

/-- The property of a sample to go through a path of the flame tree. -/
def Profile.goesThrough (p : Profile) (q : Query) (path : List String) (s : ResolvedSample) : Bool :=
  path <+: q.flamePath (q.selectedName p) s

theorem weightUnder_entries (path : List String) (ids : Finset Nat) :
    weightUnder path ((p.contributing q ids).map (q.entry (q.selectedName p))) =
      p.weight q ids (p.goesThrough q path) := by
  rw [weightUnder, List.filter_map, List.map_map]
  rfl

/-- Every contributing sample goes through the root. -/
theorem weight_goesThrough_nil (ids : Finset Nat) :
    p.weight q ids (p.goesThrough q []) =
      p.weight q ids (fun s => s.state = .onCpu) + p.weight q ids (fun s => s.state = .offCpu) := by
  refine sum_filter_split (fun s => ?_) (by simp +contextual) _ _
  cases h : s.state <;> simp [Profile.goesThrough]

theorem weight_le (ids : Finset Nat) (c : ResolvedSample → Bool) :
    p.weight q ids c ≤ (p.samples.map (·.weightNs)).sum := by
  have h : p.samples.map (·.weightNs) = p.resolvedSamples.map (·.weightNs) := by
    simp [Profile.resolvedSamples, resolve]
  rw [h]
  exact (sum_filter_le _ _ _).trans (sum_filter_le _ _ _)

theorem weight_union {a b : Finset Nat} (h : Disjoint a b) (c : ResolvedSample → Bool) :
    p.weight q (a ∪ b) c = p.weight q a c + p.weight q b c := by
  simp only [Profile.weight, Profile.contributing, List.filter_filter]
  apply sum_filter_split
  · intro s
    cases hc : c s <;> simp [Query.contributes, Bool.and_assoc, Bool.and_or_distrib_right]
  · simp only [Query.contributes, Bool.and_eq_true, decide_eq_true_eq]
    rintro s ⟨⟨-, ⟨ha, -⟩, -⟩, -, ⟨hb, -⟩, -⟩
    exact Finset.disjoint_left.mp h ha hb

/-- Some contributing sample goes through the path. -/
def Profile.FlameReaches (p : Profile) (q : Query) (ids : Finset Nat) (path : List String) : Prop :=
  ∃ s ∈ p.contributing q ids, p.goesThrough q path s = true

theorem reached_entries {path : List String} {ids : Finset Nat} :
    Reached path ((p.contributing q ids).map (q.entry (q.selectedName p))) ↔ p.FlameReaches q ids path := by
  simp [Reached, Profile.FlameReaches, Profile.goesThrough, Query.entry]

theorem at_finish_totals (ids : Finset Nat) (path : List String) :
    (((p.totals q ids).tree.finish "root").at path).map FlameNode.valueNs =
      if path = [] ∨ Reached path ((p.contributing q ids).map (q.entry (q.selectedName p))) then
        some (min (p.weight q ids (p.goesThrough q path)) u64Max)
      else none := by
  rw [TreeBuilder.at_finish, (totals_sumsOver p q ids).value, weightUnder_entries]

theorem valueAt_finish_totals (ids : Finset Nat) (path : List String) :
    ((p.totals q ids).tree.finish "root").valueAt path =
      min (p.weight q ids (p.goesThrough q path)) u64Max := by
  rw [FlameNode.valueAt, at_finish_totals]
  split
  · rfl
  · rename_i h
    have := weightUnder_of_not_reached (not_or.mp h).2
    rw [weightUnder_entries] at this
    simp [this]

/-- The numbers of a query result are saturated weights of the contributing samples. -/
structure QueryResult.Weighs (r : QueryResult) (p : Profile) (q : Query) (ids : Finset Nat) : Prop where
  cpu : r.sampledCpuNs = min (p.weight q ids fun s => s.state = .onCpu) u64Max
  off : r.offCpuNs = min (p.weight q ids fun s => s.state = .offCpu) u64Max
  value : ∀ path, r.root.valueAt path = min (p.weight q ids (p.goesThrough q path)) u64Max

theorem executeQuery_weighs (hk : p.KnownStacks) (h : executeQuery p q = .ok r) :
    r.Weighs p q r.selectedInvocationIds.toFinset := by
  obtain ⟨-, hroot, hcpu, hoff⟩ := executeQuery_totals hk h
  have hs := totals_sumsOver p q r.selectedInvocationIds.toFinset
  constructor
  · rw [hcpu]; exact hs.cpu
  · rw [hoff]; exact hs.off
  · intro path
    rw [hroot]; exact valueAt_finish_totals _ path

/-- A sample on the CPU with a weight and a frame of the function counts for its invocation. -/
theorem sampledCpuNs_pos (hk : p.KnownStacks) (h : executeQuery p q = .ok r) {s : ResolvedSample}
    (hs : s ∈ p.resolvedSamples) (hsel : s.invocationId ∈ r.selectedInvocationIds)
    (hm : q.metric.includes s.state = true) (hcpu : s.state = .onCpu) (hw : 0 < s.weightNs) {f : Frame}
    (hf : f ∈ s.frames) (hstart : q.startsAt (q.selectedName p) f = true) : 0 < r.sampledCpuNs := by
  have hc : q.contributes (q.selectedName p) r.selectedInvocationIds.toFinset s = true := by
    simp only [Query.contributes, Bool.and_eq_true, decide_eq_true_eq, List.any_eq_true, List.mem_toFinset]
    exact ⟨⟨hsel, hm⟩, f, hf, hstart⟩
  have hmem : s.weightNs ∈ ((p.contributing q r.selectedInvocationIds.toFinset).filter fun s =>
      s.state = .onCpu).map (·.weightNs) :=
    List.mem_map_of_mem (List.mem_filter.mpr ⟨List.mem_filter.mpr ⟨hs, hc⟩, by simpa using hcpu⟩)
  rw [(executeQuery_weighs hk h).cpu]
  exact lt_min (List.sum_pos_iff_exists_pos_nat.mpr ⟨_, hmem, hw⟩) (by decide)

theorem FlameNode.valueAt_nil (n : FlameNode) : n.valueAt [] = n.valueNs := rfl

end SliceProfiler
