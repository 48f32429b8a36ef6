import Mathlib.Algebra.Order.Group.Nat
import Mathlib.Algebra.Ring.Nat
import Mathlib.Data.Finset.Card
import Mathlib.Data.List.AList
import Mathlib.Data.List.Induction
import Mathlib.Order.Lattice

/-!
# Maps from keys to values

`Map` is a finite map without an order on its keys. `upsert` on a list of pairs is the update of a map
that is kept in the order of its keys.
-/

namespace Lib

abbrev Map (κ ν : Type) := AList fun _ : κ => ν

variable {κ ν α : Type}

section Unordered

variable [DecidableEq κ]

theorem lookup_insert_if (k k' : κ) (v : ν) (m : Map κ ν) :
    (m.insert k v).lookup k' = if k' = k then some v else m.lookup k' := by
  split
  · rename_i h; subst h; exact AList.lookup_insert m
  · rename_i h; exact AList.lookup_insert_ne h

theorem lookup_erase_if (k k' : κ) (m : Map κ ν) :
    (m.erase k).lookup k' = if k' = k then none else m.lookup k' := by
  split
  · rename_i h; subst h; exact AList.lookup_erase _ m
  · rename_i h; exact AList.lookup_erase_ne h

theorem of_lookup_insert {k k' : κ} {v w : ν} {m : Map κ ν} (h : (m.insert k v).lookup k' = some w) :
    k' = k ∧ w = v ∨ k' ≠ k ∧ m.lookup k' = some w := by
  rw [lookup_insert_if] at h
  split at h
  · rename_i hk; cases h; exact .inl ⟨hk, rfl⟩
  · rename_i hk; exact .inr ⟨hk, h⟩

theorem of_lookup_erase {k k' : κ} {w : ν} {m : Map κ ν} (h : (m.erase k).lookup k' = some w) :
    k' ≠ k ∧ m.lookup k' = some w := by
  rw [lookup_erase_if] at h
  split at h
  · cases h
  · rename_i hk; exact ⟨hk, h⟩

theorem mem_of_lookup {k : κ} {v : ν} {m : Map κ ν} (h : m.lookup k = some v) : k ∈ m :=
  AList.lookup_isSome.mp (Option.isSome_of_eq_some h)

theorem exists_lookup_of_mem {k : κ} {m : Map κ ν} (h : k ∈ m) : ∃ v, m.lookup k = some v :=
  Option.isSome_iff_exists.mp (AList.lookup_isSome.mpr h)

/-- The number of entries. -/
def Map.size (m : Map κ ν) : Nat := m.keys.length

theorem Map.size_le_card {m : Map κ ν} {s : Finset κ} (h : ∀ k ∈ m, k ∈ s) : m.size ≤ s.card := by
  have hsub : m.keys.toFinset ⊆ s := by
    intro k hk
    exact h k (List.mem_toFinset.mp hk)
  calc m.keys.length = m.keys.toFinset.card := (List.toFinset_card_of_nodup m.keys_nodup).symm
    _ ≤ s.card := Finset.card_le_card hsub

theorem Map.size_insert_le (m : Map κ ν) (k : κ) (v : ν) : Map.size (m.insert k v) ≤ m.size + 1 := by
  simpa [Map.size, AList.keys_insert] using List.length_erase_le

theorem Map.size_erase_le (m : Map κ ν) (k : κ) : Map.size (m.erase k) ≤ m.size := by
  simpa [Map.size, AList.keys_erase] using List.length_erase_le

theorem Map.size_erase_of_mem {m : Map κ ν} {k : κ} (h : k ∈ m) : Map.size (m.erase k) + 1 = m.size := by
  have hpos := List.length_pos_of_mem (AList.mem_keys.mp h)
  rw [Map.size, AList.keys_erase, List.length_erase_of_mem (AList.mem_keys.mp h), Map.size]
  omega

def Map.values (m : Map κ ν) : List ν := m.entries.map Sigma.snd

theorem Map.mem_values {m : Map κ ν} {v : ν} : v ∈ m.values ↔ ∃ k, m.lookup k = some v := by
  simp only [Map.values, List.mem_map]
  constructor
  · rintro ⟨⟨k, v⟩, hm, rfl⟩; exact ⟨k, AList.mem_lookup_iff.mpr hm⟩
  · rintro ⟨k, h⟩; exact ⟨⟨k, v⟩, AList.mem_lookup_iff.mp h, rfl⟩

/-- A value that holds its own key occurs once. -/
theorem Map.values_nodup {m : Map κ ν} {key : ν → κ} (h : ∀ k v, m.lookup k = some v → key v = k) :
    (m.values.map key).Nodup := by
  have hk : m.values.map key = m.keys := by
    simp only [Map.values, AList.keys, List.keys, List.map_map]
    apply List.map_congr_left
    rintro ⟨k, v⟩ hm
    exact h k v (AList.mem_lookup_iff.mpr hm)
  rw [hk]; exact m.keys_nodup

/-- Replaces the value at `k` by `f` of the old value, or adds one. -/
def Map.upsert (m : Map κ ν) (k : κ) (f : Option ν → ν) : Map κ ν := m.insert k (f (m.lookup k))

theorem Map.lookup_upsert (m : Map κ ν) (k k' : κ) (f : Option ν → ν) :
    (m.upsert k f).lookup k' = if k' = k then some (f (m.lookup k)) else m.lookup k' :=
  lookup_insert_if k k' _ m

/-- The map of a list of pairs; a later pair replaces an earlier one with the same key. -/
def Map.ofList (l : List (κ × ν)) : Map κ ν := l.foldl (fun m p => m.insert p.1 p.2) ∅

theorem lookup_foldl_insert {l : List (κ × ν)} (hn : (l.map Prod.fst).Nodup) (m : Map κ ν)
    {k : κ} {v : ν} :
    (l.foldl (fun m p => m.insert p.1 p.2) m).lookup k = some v ↔
      (k, v) ∈ l ∨ k ∉ l.map Prod.fst ∧ m.lookup k = some v := by
  induction l generalizing m with
  | nil => simp
  | cons p l ih =>
      obtain ⟨k', v'⟩ := p
      simp only [List.map_cons, List.nodup_cons, List.mem_map, not_exists, not_and] at hn
      rw [List.foldl_cons, ih hn.2, lookup_insert_if]
      by_cases hk : k = k'
      · subst hk
        have : (k, v) ∉ l := fun h => hn.1 _ h rfl
        have hl : k ∉ l.map Prod.fst := by
          intro h; obtain ⟨q, hq, he⟩ := List.mem_map.mp h; exact hn.1 q hq he
        simp only [hl, not_false_eq_true, ↓reduceIte, Option.some.injEq, true_and, this, false_or,
          List.mem_cons, Prod.mk.injEq, or_false, List.map_cons, not_true_eq_false, false_and]
        exact eq_comm
      · simp [hk]

theorem Map.lookup_ofList {l : List (κ × ν)} (hn : (l.map Prod.fst).Nodup) {k : κ} {v : ν} :
    (Map.ofList l).lookup k = some v ↔ (k, v) ∈ l := by
  simp [Map.ofList, lookup_foldl_insert hn]

theorem Map.lookup_ofList_concat (l : List (κ × ν)) (p : κ × ν) (k : κ) :
    (Map.ofList (l ++ [p])).lookup k = if k = p.1 then some p.2 else (Map.ofList l).lookup k := by
  rw [Map.ofList, List.foldl_append]
  exact lookup_insert_if ..

theorem Map.mem_of_lookup_ofList {l : List (κ × ν)} {k : κ} {v : ν} (h : (Map.ofList l).lookup k = some v) :
    (k, v) ∈ l := by
  induction l using List.reverseRecOn with
  | nil => cases h
  | append_singleton l p ih =>
      rw [Map.lookup_ofList_concat] at h
      split at h
      · rename_i hk
        cases h
        simp [hk]
      · exact List.mem_append_left _ (ih h)

/-- The value at `k` in a list of pairs. -/
def lookupKey (k : κ) : List (κ × ν) → Option ν
  | [] => none
  | (k', v) :: l => if k = k' then some v else lookupKey k l

theorem lookupKey_mem {k : κ} {v : ν} {l : List (κ × ν)} (h : lookupKey k l = some v) : (k, v) ∈ l := by
  induction l with
  | nil => cases h
  | cons p l ih =>
      obtain ⟨c, w⟩ := p
      rw [lookupKey] at h
      split at h
      · cases h; subst_vars; exact List.mem_cons_self
      · exact List.mem_cons_of_mem _ (ih h)

theorem lookupKey_eq_none {k : κ} {l : List (κ × ν)} (h : k ∉ l.map Prod.fst) : lookupKey k l = none := by
  cases hl : lookupKey k l with
  | none => rfl
  | some v => exact absurd (List.mem_map_of_mem (lookupKey_mem hl)) h

/-- In a list of pairs in the order of their insertion, replaces the value at `k` by `f` of the old value,
or adds a pair at the end. -/
def upsertLast (k : κ) (f : Option ν → ν) : List (κ × ν) → List (κ × ν)
  | [] => [(k, f none)]
  | (k', v) :: l => if k = k' then (k', f (some v)) :: l else (k', v) :: upsertLast k f l

theorem lookupKey_upsertLast (k k' : κ) (f : Option ν → ν) (l : List (κ × ν)) :
    lookupKey k' (upsertLast k f l) = if k' = k then some (f (lookupKey k l)) else lookupKey k' l := by
  induction l with
  | nil => simp [upsertLast, lookupKey]
  | cons p l ih =>
      obtain ⟨c, v⟩ := p
      by_cases hc : k = c
      · subst hc
        by_cases hk : k' = k <;> simp [upsertLast, lookupKey, hk]
      · by_cases hk : k' = k
        · subst hk; simp [upsertLast, lookupKey, hc, ih]
        · simp [upsertLast, lookupKey, hc, ih, hk]

/-- The update keeps the keys, and adds the new one at the end. -/
theorem keys_upsertLast (k : κ) (f : Option ν → ν) (l : List (κ × ν)) :
    (upsertLast k f l).map Prod.fst =
      if k ∈ l.map Prod.fst then l.map Prod.fst else l.map Prod.fst ++ [k] := by
  induction l with
  | nil => simp [upsertLast]
  | cons p l ih =>
      obtain ⟨c, v⟩ := p
      by_cases hc : k = c
      · simp [upsertLast, hc]
      · simp only [upsertLast, hc, ↓reduceIte, List.map_cons, ih, List.mem_cons, false_or]
        split <;> simp

theorem mem_upsertLast {k : κ} {f : Option ν → ν} {l : List (κ × ν)} {p : κ × ν} (h : p ∈ upsertLast k f l) :
    p = (k, f (lookupKey k l)) ∨ p ∈ l := by
  induction l with
  | nil => simpa [upsertLast, lookupKey] using h
  | cons q l ih =>
      obtain ⟨c, v⟩ := q
      rw [upsertLast] at h
      split at h
      · rename_i hc
        subst hc
        rcases List.mem_cons.mp h with rfl | h
        · simp [lookupKey]
        · exact .inr (List.mem_cons_of_mem _ h)
      · rename_i hc
        rcases List.mem_cons.mp h with rfl | h
        · simp
        · rcases ih h with h | h
          · left; simpa [lookupKey, hc] using h
          · exact .inr (List.mem_cons_of_mem _ h)

/-- The update takes the old value out of a sum over the values and adds the new one. -/
theorem sum_upsertLast (g : ν → Nat) (k : κ) (f : Option ν → ν) (l : List (κ × ν)) :
    ((upsertLast k f l).map fun p => g p.2).sum + ((lookupKey k l).map g).getD 0 =
      (l.map fun p => g p.2).sum + g (f (lookupKey k l)) := by
  induction l with
  | nil => simp [upsertLast, lookupKey]
  | cons p l ih =>
      obtain ⟨c, v⟩ := p
      by_cases hc : k = c
      · simp [upsertLast, lookupKey, hc]
        omega
      · simp only [upsertLast, lookupKey, hc, ↓reduceIte, List.map_cons, List.sum_cons]
        omega

theorem lookupKey_eq_some {k : κ} {v : ν} {l : List (κ × ν)} (hn : (l.map Prod.fst).Nodup) (h : (k, v) ∈ l) :
    lookupKey k l = some v := by
  induction l with
  | nil => cases h
  | cons p l ih =>
      obtain ⟨hp, hl⟩ := List.nodup_cons.mp hn
      rcases List.mem_cons.mp h with rfl | h
      · exact if_pos rfl
      · have hne : k ≠ p.1 := fun he => hp (he ▸ List.mem_map_of_mem h)
        exact (if_neg hne).trans (ih hl h)

/-! ## Inverse maps -/

/-- Each entry of one map is an entry of the other one the other way round. -/
def Inverse [DecidableEq ν] (m : Map κ ν) (inv : Map ν κ) : Prop :=
  ∀ k v, m.lookup k = some v ↔ inv.lookup v = some k

section Inverse

variable [DecidableEq ν] {m : Map κ ν} {inv : Map ν κ} {k : κ} {v : ν}

theorem Inverse.empty : Inverse (∅ : Map κ ν) ∅ := by
  intro k v
  simp

/-- An entry that shares neither its key nor its value with another one. -/
theorem Inverse.insert (h : Inverse m inv) (hk : ∀ v', m.lookup k = some v' → v' = v)
    (hv : ∀ k', inv.lookup v = some k' → k' = k) : Inverse (m.insert k v) (inv.insert v k) := by
  intro k' v'
  rw [lookup_insert_if, lookup_insert_if]
  by_cases hk' : k' = k
  · subst hk'
    by_cases hv' : v' = v
    · simp [hv']
    · rw [if_pos rfl, if_neg hv', ← h]
      exact ⟨fun he => absurd (Option.some.inj he).symm hv', fun he => absurd (hk v' he) hv'⟩
  · by_cases hv' : v' = v
    · subst hv'
      rw [if_neg hk', if_pos rfl, h]
      exact ⟨fun he => absurd (hv k' he) hk', fun he => absurd (Option.some.inj he).symm hk'⟩
    · rw [if_neg hk', if_neg hv', h]

theorem Inverse.erase (h : Inverse m inv) (hkv : m.lookup k = some v) : Inverse (m.erase k) (inv.erase v) := by
  intro k' v'
  rw [lookup_erase_if, lookup_erase_if]
  by_cases hk' : k' = k
  · subst hk'
    by_cases hv' : v' = v
    · simp [hv']
    · rw [if_pos rfl, if_neg hv', ← h, hkv]
      exact ⟨fun he => absurd he.symm (Option.some_ne_none _), fun he => absurd (Option.some.inj he).symm hv'⟩
  · by_cases hv' : v' = v
    · subst hv'
      rw [if_neg hk', if_pos rfl, h, (h k v').mp hkv]
      exact ⟨fun he => absurd (Option.some.inj he).symm hk', fun he => absurd he.symm (Option.some_ne_none _)⟩
    · rw [if_neg hk', if_neg hv', h]

end Inverse

end Unordered

theorem find_key_eq_some [DecidableEq κ] {key : α → κ} {l : List α} (hn : (l.map key).Nodup) {k : κ}
    {a : α} : l.find? (fun b => key b = k) = some a ↔ a ∈ l ∧ key a = k := by
  constructor
  · intro h
    exact ⟨List.mem_of_find?_eq_some h, by simpa using List.find?_some h⟩
  · rintro ⟨ha, rfl⟩
    cases h : l.find? (fun b => key b = key a) with
    | none => simpa using List.find?_eq_none.mp h a ha
    | some b =>
        have hb : key b = key a := by simpa using List.find?_some h
        rw [List.inj_on_of_nodup_map hn (List.mem_of_find?_eq_some h) ha hb]

/-- Only the one record with the key of `a` contributes to the concatenation. -/
theorem flatMap_eq_of_key {β : Type} {key : α → κ} {f : α → List β} {l : List α} (hn : (l.map key).Nodup)
    {a : α} (ha : a ∈ l) (h : ∀ b ∈ l, key b ≠ key a → f b = []) : l.flatMap f = f a := by
  induction l with
  | nil => cases ha
  | cons b l ih =>
      obtain ⟨hb, hl⟩ := List.nodup_cons.mp hn
      rw [List.flatMap_cons]
      rcases List.mem_cons.mp ha with rfl | ha
      · have hrest : l.flatMap f = [] := by
          apply List.flatMap_eq_nil_iff.mpr
          intro c hc
          apply h c (List.mem_cons_of_mem _ hc)
          intro he
          exact hb (he ▸ List.mem_map_of_mem hc)
        rw [hrest, List.append_nil]
      · have hne : key b ≠ key a := fun he => hb (he ▸ List.mem_map_of_mem ha)
        rw [h b List.mem_cons_self hne, List.nil_append]
        exact ih hl ha fun c hc => h c (List.mem_cons_of_mem _ hc)

/-- Lists with the same elements under each key in `P` have the same elements under `P`. -/
theorem perm_filter_of_key [DecidableEq κ] {key : α → κ} {P : κ → Bool} {l₁ l₂ : List α}
    (h : ∀ k, P k = true → (l₁.filter fun a => key a = k).Perm (l₂.filter fun a => key a = k)) :
    (l₁.filter fun a => P (key a)).Perm (l₂.filter fun a => P (key a)) := by
  classical
  refine List.perm_iff_count.mpr fun a => ?_
  by_cases ha : P (key a) = true
  · have hc := (h (key a) ha).count_eq a
    rw [List.count_filter (by simp), List.count_filter (by simp)] at hc
    rw [List.count_filter (p := fun a => P (key a)) ha, List.count_filter (p := fun a => P (key a)) ha, hc]
  · rw [List.count_eq_zero_of_not_mem (by simp [ha]), List.count_eq_zero_of_not_mem (by simp [ha])]

/-- A list in groups, one for each key. -/
theorem perm_groups [DecidableEq κ] {key : α → κ} {keys : List κ} (hn : keys.Nodup) {l : List α}
    (h : ∀ a ∈ l, key a ∈ keys) : (keys.flatMap fun k => l.filter fun a => key a = k).Perm l := by
  induction keys generalizing l with
  | nil =>
      cases l with
      | nil => exact .nil
      | cons a l => cases h a List.mem_cons_self
  | cons k keys ih =>
      obtain ⟨hk, hkeys⟩ := List.nodup_cons.mp hn
      have hrest := ih hkeys (l := l.filter fun a => !decide (key a = k)) fun a ha => by
        obtain ⟨hal, hne⟩ := List.mem_filter.mp ha
        exact (List.mem_cons.mp (h a hal)).resolve_left (by simpa using hne)
      have hgroups : (keys.flatMap fun k' => l.filter fun a => key a = k') =
          keys.flatMap fun k' => (l.filter fun a => !decide (key a = k)).filter fun a => key a = k' := by
        refine List.flatMap_congr fun k' hk' => ?_
        rw [List.filter_filter]
        refine List.filter_congr fun a _ => ?_
        by_cases he : key a = k'
        · simp [he, ne_of_mem_of_not_mem hk' hk]
        · simp [he]
      rw [List.flatMap_cons, hgroups]
      exact (hrest.append_left _).trans (List.filter_append_perm (fun a => decide (key a = k)) l)

section Ordered

variable [LinearOrder κ]

/-- In a list of pairs kept by increasing keys, replaces the value at `k` by `f` of the old value, or
adds one at its place. -/
def upsert (k : κ) (f : Option ν → ν) : List (κ × ν) → List (κ × ν)
  | [] => [(k, f none)]
  | (k', v) :: l =>
      if k < k' then (k, f none) :: (k', v) :: l
      else if k = k' then (k', f (some v)) :: l
      else (k', v) :: upsert k f l

theorem upsert_upsert_self (k : κ) (f g : Option ν → ν) (l : List (κ × ν)) :
    upsert k f (upsert k g l) = upsert k (fun o => f (some (g o))) l := by
  induction l with
  | nil => simp [upsert]
  | cons p l ih =>
      obtain ⟨c, v⟩ := p
      rcases lt_trichotomy k c with h | h | h
      · simp [upsert, h]
      · simp [upsert, h]
      · simp [upsert, h.not_gt, h.ne', ih]

theorem upsert_comm {k k' : κ} (hk : k ≠ k') (f g : Option ν → ν) (l : List (κ × ν)) :
    upsert k f (upsert k' g l) = upsert k' g (upsert k f l) := by
  induction l with
  | nil =>
      rcases lt_or_gt_of_ne hk with h | h
      · simp [upsert, h, h.not_gt, hk.symm]
      · simp [upsert, h, h.not_gt, hk]
  | cons p l ih =>
      obtain ⟨c, v⟩ := p
      rcases lt_trichotomy k c with h | h | h <;> rcases lt_trichotomy k' c with h' | h' | h'
      -- both updates stop before `c`: only the order of the two keys matters
      · rcases lt_or_gt_of_ne hk with hl | hl
        · simp [upsert, h, h', hl, hl.not_gt, hk.symm]
        · simp [upsert, h, h', hl, hl.not_gt, hk]
      · subst h'; simp [upsert, h, h.not_gt, h.ne']
      · simp [upsert, h, h'.not_gt, h'.ne', (h.trans h').not_gt, (h.trans h').ne']
      · subst h; simp [upsert, h', h'.not_gt, h'.ne']
      · exact absurd (h.trans h'.symm) hk
      · simp [upsert, h, h'.not_gt, h'.ne']
      · simp [upsert, h', h.not_gt, h.ne', (h'.trans h).not_gt, (h'.trans h).ne']
      · simp [upsert, h', h.not_gt, h.ne']
      · simp [upsert, h.not_gt, h.ne', h'.not_gt, h'.ne', ih]

/-- The keys of the list increase. -/
def KeysIncrease (l : List (κ × ν)) : Prop := (l.map Prod.fst).Pairwise (· < ·)

theorem KeysIncrease.tail {p : κ × ν} {l : List (κ × ν)} (h : KeysIncrease (p :: l)) : KeysIncrease l :=
  (List.pairwise_cons.mp h).2

theorem KeysIncrease.head {p : κ × ν} {l : List (κ × ν)} (h : KeysIncrease (p :: l)) :
    ∀ c ∈ l.map Prod.fst, p.1 < c :=
  (List.pairwise_cons.mp h).1

theorem KeysIncrease.lookupKey_of_lt {c k : κ} {v : ν} {l : List (κ × ν)} (hl : KeysIncrease ((c, v) :: l))
    (h : k < c) : lookupKey k ((c, v) :: l) = none := by
  apply lookupKey_eq_none
  simp only [List.map_cons, List.mem_cons, not_or]
  exact ⟨h.ne, fun hm => (h.trans (hl.head k hm)).false⟩

theorem KeysIncrease.lookupKey_of_mem {k : κ} {v : ν} {l : List (κ × ν)} (hl : KeysIncrease l) (h : (k, v) ∈ l) :
    lookupKey k l = some v :=
  lookupKey_eq_some (hl.imp fun h => h.ne) h

theorem lookupKey_upsert {l : List (κ × ν)} (hl : KeysIncrease l) (k k' : κ) (f : Option ν → ν) :
    lookupKey k' (upsert k f l) = if k' = k then some (f (lookupKey k l)) else lookupKey k' l := by
  induction l with
  | nil => simp [upsert, lookupKey]
  | cons p l ih =>
      obtain ⟨c, v⟩ := p
      rcases lt_trichotomy k c with h | h | h
      · rw [hl.lookupKey_of_lt h]
        simp [upsert, h, lookupKey]
      · subst h
        by_cases hk : k' = k <;> simp [upsert, lookupKey, hk]
      · by_cases hk : k' = k
        · subst hk; simp [upsert, h.not_gt, h.ne', lookupKey, ih hl.tail]
        · simp [upsert, h.not_gt, h.ne', lookupKey, ih hl.tail, hk]

theorem mem_upsert {l : List (κ × ν)} (hl : KeysIncrease l) {k : κ} {f : Option ν → ν} {p : κ × ν}
    (h : p ∈ upsert k f l) : p = (k, f (lookupKey k l)) ∨ p ∈ l := by
  induction l with
  | nil => simpa [upsert, lookupKey] using h
  | cons q l ih =>
      obtain ⟨c, v⟩ := q
      rcases lt_trichotomy k c with hc | hc | hc
      · rw [hl.lookupKey_of_lt hc]
        simpa [upsert, hc] using h
      · subst hc
        simp only [upsert, lt_irrefl, ↓reduceIte, List.mem_cons] at h
        rcases h with rfl | h
        · simp [lookupKey]
        · simp [h]
      · simp only [upsert, hc.not_gt, hc.ne', ↓reduceIte, List.mem_cons] at h
        rcases h with rfl | h
        · simp
        · rcases ih hl.tail h with h | h
          · simp [lookupKey, hc.ne', h]
          · simp [h]

theorem KeysIncrease.upsert {l : List (κ × ν)} (hl : KeysIncrease l) (k : κ) (f : Option ν → ν) :
    KeysIncrease (upsert k f l) := by
  induction l with
  | nil => simp [Lib.upsert, KeysIncrease]
  | cons p l ih =>
      obtain ⟨c, v⟩ := p
      rcases lt_trichotomy k c with h | h | h
      · simp only [Lib.upsert, h, ↓reduceIte]
        refine List.pairwise_cons.mpr ⟨?_, hl⟩
        simp only [List.map_cons, List.mem_cons, forall_eq_or_imp]
        exact ⟨h, fun d hd => h.trans (hl.head d hd)⟩
      · subst h
        simpa [Lib.upsert, KeysIncrease] using hl
      · simp only [Lib.upsert, h.not_gt, h.ne', ↓reduceIte]
        refine List.pairwise_cons.mpr ⟨?_, ih hl.tail⟩
        intro d hd
        obtain ⟨q, hq, rfl⟩ := List.mem_map.mp hd
        rcases mem_upsert hl.tail hq with rfl | hq
        · exact h
        · exact hl.head _ (List.mem_map_of_mem hq)

end Ordered

end Lib
