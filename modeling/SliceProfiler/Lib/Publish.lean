import Mathlib.Data.Nat.Basic
import Mathlib.Logic.Function.Basic
import SliceProfiler.Lib.Runs

/-!
# Publishing under a shared name

Writers fill a file under a name of their own and then rename it to the name that they share, while readers open the
shared name. A name leads to an inode, and an open file keeps its inode. Each call may fail, and a writer may crash
between two calls.
-/

namespace Lib

open Function

variable {N P R β : Type}

/-! ## Files -/

structure Disk (N β : Type) where
  names : N → Option Nat
  contents : Nat → List β
  /-- The inodes from here on are not in use. -/
  fresh : Nat

namespace Disk

def read (d : Disk N β) (n : N) : Option (List β) := (d.names n).map d.contents

def append (d : Disk N β) (i : Nat) (l : List β) : Disk N β :=
  { d with contents := update d.contents i (d.contents i ++ l) }

variable [DecidableEq N]

/-- A file that exists is truncated. -/
def create (d : Disk N β) (n : N) : Nat × Disk N β :=
  match d.names n with
  | some i => (i, { d with contents := update d.contents i [] })
  | none =>
      (d.fresh,
        { names := update d.names n (some d.fresh)
          contents := update d.contents d.fresh []
          fresh := d.fresh + 1 })

/-- Two names of one inode stay as they are. -/
def rename (d : Disk N β) (source target : N) : Option (Disk N β) :=
  match d.names source with
  | none => none
  | some i =>
      if d.names target = some i then some d
      else some { d with names := update (update d.names target (some i)) source none }

def remove (d : Disk N β) (n : N) : Disk N β := { d with names := update d.names n none }

end Disk

/-! ## Writers and readers -/

/-- The call that comes next. -/
inductive WriterPc (β : Type) where
  | create
  | write (i : Nat) (left : List β)
  | rename
  | remove
  | renamed
  | failed (removed : Bool)
  | crashed
deriving DecidableEq

inductive ReaderPc (β : Type) where
  | opening
  | reading (i : Nat) (front : List β)
  | returned (l : Option (List β))
deriving DecidableEq

/-- The shared name, and for each writer its own name and what it writes, unless it fails to encode it. -/
structure Publishers (N P β : Type) where
  output : N
  temporary : P → N
  data : P → Option (List β)
  injective : temporary.Injective
  apart : ∀ p, temporary p ≠ output

structure Published (N P R β : Type) where
  disk : Disk N β
  writers : P → WriterPc β
  readers : R → ReaderPc β

inductive PublishEvent (P R : Type) where
  /-- The next call of a writer. A write takes `n + 1` elements at most. -/
  | advance (p : P) (succeeds : Bool) (n : Nat)
  | crash (p : P)
  /-- The next call of a reader. A read takes `n + 1` elements at most. -/
  | look (r : R) (succeeds : Bool) (n : Nat)

def WriterPc.active : WriterPc β → Bool
  | .create | .write _ _ | .rename | .remove => true
  | .renamed | .failed _ | .crashed => false

/-- The rest of a write, or the rename behind it. -/
def WriterPc.rest (i : Nat) (left : List β) : WriterPc β := if left.isEmpty then .rename else .write i left

namespace Publishers

/-- The next call of a reader. -/
def look (w : Publishers N P β) (d : Disk N β) (succeeds : Bool) (n : Nat) : ReaderPc β → Option (ReaderPc β)
  | .opening =>
      match d.names w.output, succeeds with
      | some i, true => some (.reading i [])
      | _, _ => some (.returned none)
  | .reading i front =>
      if succeeds then
        let chunk := ((d.contents i).drop front.length).take (n + 1)
        some (if chunk.isEmpty then .returned (some front) else .reading i (front ++ chunk))
      else some (.returned none)
  | .returned _ => none

/-- The next call of the writer `p`. -/
def advance [DecidableEq N] (w : Publishers N P β) (d : Disk N β) (p : P) (succeeds : Bool) (n : Nat) :
    WriterPc β → Option (Disk N β × WriterPc β)
  | .create =>
      match w.data p, succeeds with
      | some l, true =>
          let (i, d) := d.create (w.temporary p)
          some (d, .rest i l)
      | _, _ => some (d, .remove)
  | .write i left =>
      if succeeds then some (d.append i (left.take (n + 1)), .rest i (left.drop (n + 1)))
      else some (d, .remove)
  | .rename =>
      match d.rename (w.temporary p) w.output, succeeds with
      | some d, true => some (d, .renamed)
      | _, _ => some (d, .remove)
  | .remove => some (if succeeds then d.remove (w.temporary p) else d, .failed succeeds)
  | .renamed | .failed _ | .crashed => none

def step [DecidableEq N] [DecidableEq P] [DecidableEq R] (w : Publishers N P β) (s : Published N P R β) :
    PublishEvent P R → Option (Published N P R β)
  | .advance p succeeds n =>
      (w.advance s.disk p succeeds n (s.writers p)).map fun (disk, pc) =>
        { s with disk, writers := update s.writers p pc }
  | .crash p => if (s.writers p).active then some { s with writers := update s.writers p .crashed } else none
  | .look r succeeds n =>
      (w.look s.disk succeeds n (s.readers r)).map fun pc => { s with readers := update s.readers r pc }

end Publishers

def Published.initial (d : Disk N β) : Published N P R β := ⟨d, fun _ => .create, fun _ => .opening⟩

/-! ## The invariant -/

namespace Publishers

/-- The names that the writers use. -/
def Uses (w : Publishers N P β) (n : N) : Prop := n = w.output ∨ ∃ p, n = w.temporary p

/-- No two of the names in use lead to one inode. -/
structure Separate (w : Publishers N P β) (d : Disk N β) : Prop where
  injective : ∀ {m n i}, w.Uses m → w.Uses n → d.names m = some i → d.names n = some i → m = n
  bounded : ∀ {n i}, w.Uses n → d.names n = some i → i < d.fresh

/-- What is complete: the content in front of the run, and what a writer that renamed its file has written. -/
def Complete (w : Publishers N P β) (before : Option (List β)) (writers : P → WriterPc β) (l : List β) : Prop :=
  before = some l ∨ ∃ p, writers p = .renamed ∧ w.data p = some l

/-- What a writer has done to its file. -/
def Filled (w : Publishers N P β) (d : Disk N β) (p : P) : WriterPc β → Prop
  | .create | .remove | .crashed | .failed false => True
  | .write i left => d.names (w.temporary p) = some i ∧ w.data p = some (d.contents i ++ left)
  | .rename => ∃ i, d.names (w.temporary p) = some i ∧ w.data p = some (d.contents i)
  | .renamed | .failed true => d.names (w.temporary p) = none

/-- An inode that no writer touches any more. -/
structure Sealed (w : Publishers N P β) (before : Option (List β)) (s : Published N P R β) (i : Nat) : Prop where
  bounded : i < s.disk.fresh
  untouched : ∀ p, s.disk.names (w.temporary p) ≠ some i
  complete : w.Complete before s.writers (s.disk.contents i)

/-- What a reader has seen. -/
def Saw (w : Publishers N P β) (before : Option (List β)) (s : Published N P R β) : ReaderPc β → Prop
  | .opening | .returned none => True
  | .reading i front => w.Sealed before s i ∧ front <+: s.disk.contents i
  | .returned (some l) => w.Complete before s.writers l

/-- The shared name leads to what some writer has renamed. -/
def Replaced (w : Publishers N P β) (s : Published N P R β) : Prop :=
  ∃ i q, s.disk.names w.output = some i ∧ s.writers q = .renamed ∧ w.data q = some (s.disk.contents i)

structure Invariant (w : Publishers N P β) (before : Option (List β)) (s : Published N P R β) : Prop where
  separate : w.Separate s.disk
  filled : ∀ p, w.Filled s.disk p (s.writers p)
  output : ∀ i, s.disk.names w.output = some i → w.Sealed before s i
  kept : before.isSome → (s.disk.names w.output).isSome
  saw : ∀ r, w.Saw before s (s.readers r)
  replaced : ∀ p, s.writers p = .renamed → w.Replaced s

variable {w : Publishers N P β} {before : Option (List β)} {d d' : Disk N β} {s s' : Published N P R β}
  {writers : P → WriterPc β} {p : P} {pc : WriterPc β} {i : Nat} {l : List β}

theorem uses_temporary (p : P) : w.Uses (w.temporary p) := .inr ⟨p, rfl⟩

theorem uses_output : w.Uses w.output := .inl rfl

/-! ## What a call touches -/

/-- The call changes no file but the one of `p`. -/
structure Touches (w : Publishers N P β) (p : P) (d d' : Disk N β) : Prop where
  names : ∀ n, n ≠ w.temporary p → d'.names n = d.names n
  contents : ∀ i, i < d.fresh → d.names (w.temporary p) ≠ some i → d'.contents i = d.contents i
  fresh : d.fresh ≤ d'.fresh
  own : ∀ i, d'.names (w.temporary p) = some i → d.names (w.temporary p) = some i ∨ d.fresh ≤ i ∧ i < d'.fresh

theorem touches_self : w.Touches p d d := ⟨fun _ _ => rfl, fun _ _ _ => rfl, le_rfl, fun _ => .inl⟩

theorem touches_append (h : d.names (w.temporary p) = some i) : w.Touches p d (d.append i l) := by
  refine ⟨fun _ _ => rfl, fun j _ hj => update_of_ne ?_ _ _, le_rfl, fun _ => .inl⟩
  rintro rfl
  exact hj h

theorem touches_create [DecidableEq N] : w.Touches p d (d.create (w.temporary p)).2 := by
  unfold Disk.create
  split
  · rename_i i hi
    refine ⟨fun _ _ => rfl, fun j _ hj => update_of_ne ?_ _ _, le_rfl, fun _ => .inl⟩
    rintro rfl
    exact hj hi
  · refine ⟨fun n hn => update_of_ne hn _ _, fun j hj _ => update_of_ne (Nat.ne_of_lt hj) _ _, Nat.le_succ _,
      fun j hj => .inr ?_⟩
    dsimp only at hj
    rw [update_self] at hj
    cases hj
    exact ⟨le_rfl, Nat.lt_succ_self _⟩

theorem touches_remove [DecidableEq N] : w.Touches p d (d.remove (w.temporary p)) := by
  refine ⟨fun n hn => update_of_ne hn _ _, fun _ _ _ => rfl, le_rfl, fun i hi => ?_⟩
  simp only [Disk.remove, update_self] at hi
  cases hi

theorem Separate.touch (h : w.Separate d) (ht : w.Touches p d d') : w.Separate d' where
  injective := by
    -- an inode that the call has taken is behind those in use
    have hother : ∀ {n i}, w.Uses n → n ≠ w.temporary p → d'.names n = some i → d'.names (w.temporary p) ≠ some i := by
      intro n i hn hne hi hown
      rw [ht.names n hne] at hi
      rcases ht.own i hown with hown | ⟨hle, -⟩
      · exact hne (h.injective hn (uses_temporary p) hi hown)
      · exact absurd (h.bounded hn hi) hle.not_gt
    intro m n i hm hn hmi hni
    by_cases hmp : m = w.temporary p
    · by_cases hnp : n = w.temporary p
      · rw [hmp, hnp]
      · exact absurd (hmp ▸ hmi) (hother hn hnp hni)
    · by_cases hnp : n = w.temporary p
      · exact absurd (hnp ▸ hni) (hother hm hmp hmi)
      · rw [ht.names m hmp] at hmi
        rw [ht.names n hnp] at hni
        exact h.injective hm hn hmi hni
  bounded := by
    intro n i hn hi
    by_cases hne : n = w.temporary p
    · subst hne
      rcases ht.own i hi with hi | ⟨-, hlt⟩
      · exact lt_of_lt_of_le (h.bounded hn hi) ht.fresh
      · exact hlt
    · rw [ht.names n hne] at hi
      exact lt_of_lt_of_le (h.bounded hn hi) ht.fresh

/-- What a writer has done to its file depends on that file only. -/
theorem Filled.congr (h : w.Filled d p pc) (hnames : d'.names (w.temporary p) = d.names (w.temporary p))
    (hcontents : ∀ i, d.names (w.temporary p) = some i → d'.contents i = d.contents i) : w.Filled d' p pc := by
  cases pc with
  | write i left =>
      obtain ⟨hi, hdata⟩ := h
      exact ⟨hnames.trans hi, by rw [hdata, hcontents i hi]⟩
  | rename =>
      obtain ⟨i, hi, hdata⟩ := h
      exact ⟨i, hnames.trans hi, by rw [hdata, hcontents i hi]⟩
  | failed removed => cases removed with
    | true => exact hnames.trans h
    | false => trivial
  | renamed => exact hnames.trans h
  | create | remove | crashed => trivial

theorem Filled.touch {q : P} (h : w.Filled d q pc) (hd : w.Separate d) (ht : w.Touches p d d') (hq : q ≠ p) :
    w.Filled d' q pc := by
  have hne : w.temporary q ≠ w.temporary p := fun he => hq (w.injective he)
  refine h.congr (ht.names _ hne) fun i hi => ht.contents i (hd.bounded (uses_temporary q) hi) fun hp => hne ?_
  exact hd.injective (uses_temporary q) (uses_temporary p) hi hp

theorem filled_rest {left : List β} (hi : d.names (w.temporary p) = some i)
    (hdata : w.data p = some (d.contents i ++ left)) : w.Filled d p (.rest i left) := by
  unfold WriterPc.rest
  split
  · rename_i hempty
    rw [List.isEmpty_iff.mp hempty, List.append_nil] at hdata
    exact ⟨i, hi, hdata⟩
  · exact ⟨hi, hdata⟩

theorem rest_ne_renamed {left : List β} : WriterPc.rest i left ≠ .renamed := by
  unfold WriterPc.rest
  split
  · simp
  · simp

theorem create_spec [DecidableEq N] (n : N) : (d.create n).2.names n = some (d.create n).1 ∧
    (d.create n).2.contents (d.create n).1 = [] := by
  unfold Disk.create
  split
  · rename_i i hi
    exact ⟨hi, update_self ..⟩
  · exact ⟨update_self .., update_self ..⟩

/-- The rename replaces the shared file, and touches no other one. -/
structure Moves (w : Publishers N P β) (p : P) (d d' : Disk N β) : Prop where
  source : d'.names (w.temporary p) = none
  target : ∃ i, d'.names w.output = some i ∧ d.names (w.temporary p) = some i
  names : ∀ n, n ≠ w.temporary p → n ≠ w.output → d'.names n = d.names n
  contents : d'.contents = d.contents
  fresh : d'.fresh = d.fresh

theorem moves_rename [DecidableEq N] (hd : w.Separate d) (h : d.rename (w.temporary p) w.output = some d') :
    w.Moves p d d' := by
  unfold Disk.rename at h
  split at h
  · cases h
  · rename_i i hi
    rw [if_neg fun he => w.apart p (hd.injective (uses_temporary p) uses_output hi he)] at h
    cases h
    refine ⟨update_self .., ⟨i, ?_, hi⟩, fun n hn ho => ?_, rfl, rfl⟩
    · dsimp only
      rw [update_of_ne (w.apart p).symm, update_self]
    · dsimp only
      rw [update_of_ne hn, update_of_ne ho]

theorem Separate.move (h : w.Separate d) (hm : w.Moves p d d') : w.Separate d' := by
  -- each name leads to what a name in use has led to
  have hback : ∀ {n i}, w.Uses n → d'.names n = some i →
      (n = w.output ∧ d.names (w.temporary p) = some i) ∨ n ≠ w.temporary p ∧ n ≠ w.output ∧ d.names n = some i := by
    intro n i hn hi
    by_cases hno : n = w.output
    · subst hno
      obtain ⟨j, hj, hsource⟩ := hm.target
      rw [hi] at hj
      cases hj
      exact .inl ⟨rfl, hsource⟩
    · by_cases hnp : n = w.temporary p
      · rw [hnp, hm.source] at hi
        cases hi
      · exact .inr ⟨hnp, hno, (hm.names n hnp hno) ▸ hi⟩
  constructor
  · intro m n i hum hun hmi hni
    rcases hback hum hmi with ⟨hmo, hm⟩ | ⟨hmp, -, hm⟩
    · rcases hback hun hni with ⟨hno, -⟩ | ⟨hnp, -, hn⟩
      · rw [hmo, hno]
      · exact absurd (h.injective hun (uses_temporary p) hn hm) hnp
    · rcases hback hun hni with ⟨-, hn⟩ | ⟨-, -, hn⟩
      · exact absurd (h.injective hum (uses_temporary p) hm hn) hmp
      · exact h.injective hum hun hm hn
  · intro n i hun hni
    rw [hm.fresh]
    rcases hback hun hni with ⟨-, hi⟩ | ⟨-, -, hi⟩
    · exact h.bounded (uses_temporary p) hi
    · exact h.bounded hun hi

theorem Saw.mono {r : ReaderPc β} (h : w.Saw before s r)
    (hcomplete : ∀ l, w.Complete before s.writers l → w.Complete before s'.writers l)
    (hsealed : ∀ i, w.Sealed before s i → w.Sealed before s' i ∧ s'.disk.contents i = s.disk.contents i) :
    w.Saw before s' r := by
  cases r with
  | opening => trivial
  | reading i front =>
      obtain ⟨hi, he⟩ := hsealed i h.1
      exact ⟨hi, he ▸ h.2⟩
  | returned l => cases l with
    | none => trivial
    | some l => exact hcomplete l h

/-! ## The steps keep the invariant -/

section Steps

variable [DecidableEq P]

theorem Complete.update (h : w.Complete before writers l) (hp : writers p ≠ .renamed) :
    w.Complete before (update writers p pc) l := by
  refine h.imp_right fun ⟨q, hq, hdata⟩ => ⟨q, ?_, hdata⟩
  have hne : q ≠ p := by
    rintro rfl
    exact hp hq
  rw [update_of_ne hne, hq]

theorem Invariant.touch (h : w.Invariant before s) (ht : w.Touches p s.disk d') (hf : w.Filled d' p pc)
    (hp : s.writers p ≠ .renamed) (hpc : pc ≠ .renamed) :
    w.Invariant before { s with disk := d', writers := update s.writers p pc } := by
  have hcomplete : ∀ l, w.Complete before s.writers l → w.Complete before (Function.update s.writers p pc) l :=
    fun l hl => hl.update hp
  have hsealed : ∀ i, w.Sealed before s i →
      w.Sealed before { s with disk := d', writers := Function.update s.writers p pc } i ∧
        d'.contents i = s.disk.contents i := by
    intro i hi
    have hcontents := ht.contents i hi.bounded (hi.untouched p)
    refine ⟨⟨lt_of_lt_of_le hi.bounded ht.fresh, fun q hq => ?_, ?_⟩, hcontents⟩
    · by_cases hqp : q = p
      · subst hqp
        rcases ht.own i hq with hq | ⟨hle, -⟩
        · exact hi.untouched q hq
        · exact absurd hi.bounded hle.not_gt
      · dsimp only at hq
        rw [ht.names _ fun he => hqp (w.injective he)] at hq
        exact hi.untouched q hq
    · rw [hcontents]
      exact hcomplete _ hi.complete
  have houtput : d'.names w.output = s.disk.names w.output := ht.names _ (w.apart p).symm
  refine ⟨h.separate.touch ht, fun q => ?_, fun i hi => ?_, fun hb => ?_, fun r => (h.saw r).mono hcomplete hsealed,
    fun q hq => ?_⟩
  · by_cases hqp : q = p
    · subst hqp
      dsimp only
      rwa [update_self]
    · dsimp only
      rw [update_of_ne hqp]
      exact (h.filled q).touch h.separate ht hqp
  · exact (hsealed i (h.output i (houtput ▸ hi))).1
  · exact houtput ▸ h.kept hb
  · have hqp : q ≠ p := by
      rintro rfl
      exact hpc (by simpa using hq)
    dsimp only at hq
    rw [update_of_ne hqp] at hq
    obtain ⟨i, o, hi, ho, hdata⟩ := h.replaced q hq
    have hop : o ≠ p := by
      rintro rfl
      exact hp ho
    refine ⟨i, o, houtput.trans hi, ?_, ?_⟩
    · exact (update_of_ne hop _ _).trans ho
    · exact hdata.trans (congrArg some (hsealed i (h.output i hi)).2.symm)

/-- A call that touches nothing. -/
theorem Invariant.goOn (h : w.Invariant before s) (hf : w.Filled s.disk p pc) (hp : s.writers p ≠ .renamed)
    (hpc : pc ≠ .renamed) : w.Invariant before { s with writers := update s.writers p pc } :=
  h.touch touches_self hf hp hpc

theorem Invariant.move (h : w.Invariant before s) (hm : w.Moves p s.disk d') (hp : s.writers p = .rename) :
    w.Invariant before { s with disk := d', writers := update s.writers p .renamed } := by
  have hnot : s.writers p ≠ .renamed := by simp [hp]
  have hcomplete : ∀ l, w.Complete before s.writers l → w.Complete before (Function.update s.writers p .renamed) l :=
    fun l hl => hl.update hnot
  have hother : ∀ {q}, q ≠ p → d'.names (w.temporary q) = s.disk.names (w.temporary q) :=
    fun hq => hm.names _ (fun he => hq (w.injective he)) (w.apart _)
  have hsealed : ∀ i, w.Sealed before s i →
      w.Sealed before { s with disk := d', writers := Function.update s.writers p .renamed } i ∧
        d'.contents i = s.disk.contents i := by
    intro i hi
    refine ⟨⟨hm.fresh ▸ hi.bounded, fun q hq => ?_, ?_⟩, by rw [hm.contents]⟩
    · by_cases hqp : q = p
      · subst hqp
        rw [hm.source] at hq
        cases hq
      · dsimp only at hq
        rw [hother hqp] at hq
        exact hi.untouched q hq
    · rw [hm.contents]
      exact hcomplete _ hi.complete
  obtain ⟨i, hi, hsource⟩ := hm.target
  have hdata : w.data p = some (d'.contents i) := by
    obtain ⟨j, hj, hdata⟩ := hp ▸ h.filled p
    rw [hsource] at hj
    cases hj
    rw [hdata, hm.contents]
  have hself : Function.update s.writers p .renamed p = .renamed := update_self ..
  refine ⟨h.separate.move hm, fun q => ?_, fun j hj => ?_, fun _ => Option.isSome_iff_exists.mpr ⟨i, hi⟩,
    fun r => (h.saw r).mono hcomplete hsealed, fun _ _ => ⟨i, p, hi, hself, hdata⟩⟩
  · by_cases hqp : q = p
    · subst hqp
      dsimp only
      rw [update_self]
      exact hm.source
    · dsimp only
      rw [update_of_ne hqp]
      exact (h.filled q).congr (hother hqp) fun _ _ => by rw [hm.contents]
  · dsimp only at hj
    rw [hi] at hj
    cases hj
    refine ⟨?_, fun q hq => ?_, .inr ⟨p, hself, hdata⟩⟩
    · rw [hm.fresh]
      exact h.separate.bounded (uses_temporary p) hsource
    · by_cases hqp : q = p
      · subst hqp
        rw [hm.source] at hq
        cases hq
      · dsimp only at hq
        rw [hother hqp] at hq
        exact hqp (w.injective (h.separate.injective (uses_temporary q) (uses_temporary p) hq hsource))

theorem Invariant.advance [DecidableEq N] (h : w.Invariant before s) {succeeds : Bool} {n : Nat}
    (hstep : w.advance s.disk p succeeds n (s.writers p) = some (d', pc)) :
    w.Invariant before { s with disk := d', writers := update s.writers p pc } := by
  have hfilled := h.filled p
  cases hp : s.writers p with
  | create =>
      have hnot : s.writers p ≠ .renamed := by simp [hp]
      simp only [hp, Publishers.advance] at hstep
      split at hstep
      · rename_i l hdata
        cases hstep
        obtain ⟨hname, hempty⟩ := create_spec (d := s.disk) (w.temporary p)
        refine h.touch touches_create (filled_rest hname ?_) hnot rest_ne_renamed
        rw [hempty]
        exact hdata
      · cases hstep
        exact h.goOn trivial hnot (by simp)
  | write i left =>
      have hnot : s.writers p ≠ .renamed := by simp [hp]
      rw [hp] at hfilled
      obtain ⟨hi, hdata⟩ := hfilled
      simp only [hp, Publishers.advance] at hstep
      split at hstep
      · cases hstep
        refine h.touch (touches_append hi) (filled_rest hi ?_) hnot rest_ne_renamed
        simp only [hdata, Disk.append, update_self, List.append_assoc, List.take_append_drop]
      · cases hstep
        exact h.goOn trivial hnot (by simp)
  | rename =>
      have hnot : s.writers p ≠ .renamed := by simp [hp]
      simp only [hp, Publishers.advance] at hstep
      split at hstep
      · rename_i d'' hrename
        cases hstep
        exact h.move (moves_rename h.separate hrename) hp
      · cases hstep
        exact h.goOn trivial hnot (by simp)
  | remove =>
      have hnot : s.writers p ≠ .renamed := by simp [hp]
      simp only [hp, Publishers.advance] at hstep
      cases hstep
      cases succeeds with
      | true => exact h.touch touches_remove (update_self ..) hnot (by simp)
      | false => exact h.goOn trivial hnot (by simp)
  | renamed => simp [hp, Publishers.advance] at hstep
  | failed => simp [hp, Publishers.advance] at hstep
  | crashed => simp [hp, Publishers.advance] at hstep

end Steps

/-- A read goes on with what the inode held from the beginning, since it is sealed. -/
theorem Invariant.look (h : w.Invariant before s) {succeeds : Bool} {n : Nat} {r r' : ReaderPc β}
    (hr : w.Saw before s r) (hstep : w.look s.disk succeeds n r = some r') : w.Saw before s r' := by
  cases r with
  | opening =>
      simp only [Publishers.look] at hstep
      split at hstep
      · rename_i i hi
        cases hstep
        exact ⟨h.output i hi, List.nil_prefix⟩
      · cases hstep
        trivial
  | reading i front =>
      obtain ⟨hsealed, rest, hrest⟩ := hr
      have hdrop : (s.disk.contents i).drop front.length = rest := by rw [← hrest, List.drop_left]
      simp only [Publishers.look, hdrop] at hstep
      split at hstep
      · cases hstep
        split
        · rename_i hempty
          have hnil : rest = [] := by simpa using hempty
          rw [hnil, List.append_nil] at hrest
          exact hrest ▸ hsealed.complete
        · refine ⟨hsealed, rest.drop (n + 1), ?_⟩
          rw [List.append_assoc, List.take_append_drop, hrest]
      · cases hstep
        trivial
  | returned => cases hstep

theorem invariant_initial (hd : w.Separate d) :
    w.Invariant (d.read w.output) (.initial d : Published N P R β) := by
  refine ⟨hd, fun _ => trivial, fun i hi => ⟨hd.bounded uses_output hi, fun p hp => ?_, .inl ?_⟩,
    fun hb => ?_, fun _ => trivial, fun _ hp => by cases hp⟩
  · exact w.apart p (hd.injective (uses_temporary p) uses_output hp hi)
  · exact Option.map_eq_some_iff.mpr ⟨i, hi, rfl⟩
  · exact Option.isSome_map.symm.trans hb

theorem Invariant.read_output (h : w.Invariant before s) : s.disk.read w.output = before ∨ ∃ p l,
    s.writers p = .renamed ∧ w.data p = some l ∧ s.disk.read w.output = some l := by
  cases hi : s.disk.names w.output with
  | none =>
      have hbefore := mt h.kept
      rw [hi] at hbefore
      refine .inl ?_
      rw [Disk.read, hi, Option.not_isSome_iff_eq_none.mp (hbefore (by simp))]
      rfl
  | some i =>
      have hread : s.disk.read w.output = some (s.disk.contents i) := by rw [Disk.read, hi]; rfl
      rcases (h.output i hi).complete with hbefore | ⟨p, hp, hdata⟩
      · exact .inl (hread.trans hbefore.symm)
      · exact .inr ⟨p, _, hp, hdata, hread⟩

variable [DecidableEq N] [DecidableEq P] [DecidableEq R]

theorem Invariant.step (h : w.Invariant before s) {e : PublishEvent P R} (hstep : w.step s e = some s') :
    w.Invariant before s' := by
  cases e with
  | advance p succeeds n =>
      obtain ⟨⟨d', pc⟩, hadvance, rfl⟩ := Option.map_eq_some_iff.mp hstep
      exact h.advance hadvance
  | crash p =>
      simp only [Publishers.step] at hstep
      split at hstep
      · rename_i hactive
        cases hstep
        refine h.goOn trivial (fun hp => ?_) (by simp)
        rw [hp] at hactive
        cases hactive
      · cases hstep
  | look r succeeds n =>
      obtain ⟨pc, hlook, rfl⟩ := Option.map_eq_some_iff.mp hstep
      have hsealed : ∀ i, w.Sealed before s i →
          w.Sealed before { s with readers := update s.readers r pc } i := fun i hi => ⟨hi.1, hi.2, hi.3⟩
      have hsaw : ∀ t, w.Saw before s t → w.Saw before { s with readers := update s.readers r pc } t :=
        fun t ht => ht.mono (fun _ hl => hl) fun i hi => ⟨hsealed i hi, rfl⟩
      refine ⟨h.separate, h.filled, fun i hi => hsealed i (h.output i hi), h.kept, fun t => ?_, h.replaced⟩
      by_cases htr : t = r
      · subst htr
        dsimp only
        rw [update_self]
        exact hsaw pc (h.look (h.saw t) hlook)
      · dsimp only
        rw [update_of_ne htr]
        exact hsaw _ (h.saw t)

/-- Whatever fails or crashes, and in whatever order the calls come. -/
theorem invariant_run (hd : w.Separate d) {events : List (PublishEvent P R)}
    (h : run w.step (.initial d) events = some s) : w.Invariant (d.read w.output) s :=
  run_invariant (w.Invariant (d.read w.output)) (fun _ _ _ hs _ => hs.step) (invariant_initial hd)
    (along_of_forall (P := fun _ => True) fun _ _ => trivial) h

end Publishers

end Lib
