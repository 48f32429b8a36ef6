import SliceProfiler.Collector.Lemmas.Report

/-!
# The order in which the boundaries of an identity arrive

A return is compared with what the record carries when it arrives. When it arrives in front of the entry, there is
nothing of the entry to compare it with.
-/

namespace SliceProfiler

open Lib

variable {i : Nat} {es : List CollectorEvent} {e r : Boundary}

/-- The events in front of the first return of the identity. -/
def beforeReturn (i : Nat) (es : List CollectorEvent) : List CollectorEvent :=
  es.takeWhile fun e => (e.returnOf i).isNone

theorem returnsOf_beforeReturn (i : Nat) (es : List CollectorEvent) : returnsOf i (beforeReturn i es) = [] := by
  have hall : (beforeReturn i es).all (fun e => (e.returnOf i).isNone) = true := List.all_takeWhile
  exact List.filterMap_eq_nil_iff.mpr fun e he => Option.isNone_iff_eq_none.mp (List.all_eq_true.mp hall e he)

theorem beforeReturn_eq {pre post : List CollectorEvent} {ev : CollectorEvent} (hev : ev.returnOf i = some r)
    (hpre : returnsOf i pre = []) : beforeReturn i (pre ++ ev :: post) = pre := by
  have hnone : ∀ x ∈ pre, (x.returnOf i).isNone = true :=
    fun x hx => Option.isNone_iff_eq_none.mpr (List.filterMap_eq_nil_iff.mp hpre x hx)
  rw [beforeReturn, List.takeWhile_append_of_pos hnone, List.takeWhile_cons_of_neg (by simp [hev]), List.append_nil]

/-- With one return all returns agree when this one does. -/
theorem returnsAgree_iff (hr : returnsOf i es = [r]) :
    ReturnsAgree i es ↔ ReturnAgrees i (beforeReturn i es) r := by
  constructor
  · intro h
    obtain ⟨pre, ev, post, rfl, hpre, hev, -⟩ := List.filterMap_eq_cons_iff.mp hr
    rw [beforeReturn_eq hev (List.filterMap_eq_nil_iff.mpr hpre)]
    exact h pre ev post rfl r hev
  · rintro h pre ev post rfl r' hr'
    have hsplit : returnsOf i pre ++ r' :: returnsOf i post = [r] := by
      rw [← hr]
      simp only [returnsOf, List.filterMap_append, List.filterMap_cons, Option.mem_def.mp hr']
    obtain ⟨hpre, rfl⟩ : returnsOf i pre = [] ∧ r' = r := by
      cases hp : returnsOf i pre with
      | nil => rw [hp] at hsplit; exact ⟨rfl, (List.cons.inj hsplit).1⟩
      | cons b l => rw [hp] at hsplit; simp at hsplit
    rwa [beforeReturn_eq hr' hpre] at h

theorem entriesOf_beforeReturn (he : entriesOf i es = [e]) :
    entriesOf i (beforeReturn i es) = [] ∨ entriesOf i (beforeReturn i es) = [e] := by
  have hstart : entriesOf i (beforeReturn i es) <+: [e] :=
    he ▸ (List.takeWhile_prefix _).filterMap _
  cases hb : entriesOf i (beforeReturn i es) with
  | nil => exact .inl rfl
  | cons b l =>
      rw [hb, List.cons_prefix_cons] at hstart
      rw [hstart.1, List.prefix_nil.mp hstart.2]
      exact .inr rfl

/-- The return arrives in front of the entry, on the thread of the samples in front of it, and nothing else
invalidates the identity. -/
structure ReturnFirst (i : Nat) (es : List CollectorEvent) (e r : Boundary) : Prop where
  entry : entriesOf i es = [e]
  ret : returnsOf i es = [r]
  first : entriesOf i (beforeReturn i es) = []
  samples : ∀ tid ∈ (tidsOf i (beforeReturn i es)).head?, tid = r.tid
  ordered : e.timestampNs ≤ r.timestampNs
  clear : ∀ v ∈ violationsOf es, ¬ (v.1 = e.tid ∧ e.timestampNs ≤ v.2 ∧ v.2 ≤ r.timestampNs)

theorem ReturnFirst.retained (h : ReturnFirst i es e r) : Retained i es e r where
  entry := h.entry
  ret := h.ret
  agree := by
    rw [returnsAgree_iff h.ret]
    simpa [ReturnAgrees, carriedFunction, carriedTid, h.first, returnsOf_beforeReturn] using h.samples
  ordered := h.ordered
  clear := h.clear

/-- A retained identity agrees, unless its return arrives first. -/
theorem Retained.agrees_or_returnFirst (h : Retained i es e r) :
    (e.functionId = r.functionId ∧ e.tid = r.tid) ∨ ReturnFirst i es e r := by
  have hagree := (returnsAgree_iff h.ret).mp h.agree
  rcases entriesOf_beforeReturn h.entry with hb | hb
  · refine .inr ⟨h.entry, h.ret, hb, ?_, h.ordered, h.clear⟩
    simpa [carriedTid, hb] using hagree.2
  · left
    simpa [ReturnAgrees, carriedFunction, carriedTid, hb] using hagree

end SliceProfiler
