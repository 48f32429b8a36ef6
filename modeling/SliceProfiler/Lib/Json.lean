import Mathlib.Logic.Equiv.Defs
import SliceProfiler.Lib.Maps

/-!
# JSON trees and codecs

A codec writes values as JSON trees and reads them back. It carries both laws: a value that fits is read back
as it was written, and what is read fits. Records are lists of named fields.
-/

namespace Lib

/-- `number` is a number that is not a natural number. -/
inductive Json where
  | null
  | bool (b : Bool)
  | natural (n : Nat)
  | number
  | string (s : String)
  | array (items : List Json)
  | object (members : List (String × Json))

/-- `missing` is what an absent member of a record reads as. -/
structure Codec (α : Type) where
  fits : α → Bool
  encode : α → Json
  decode : Json → Option α
  missing : Option α := none
  decode_encode : ∀ a, fits a = true → decode (encode a) = some a
  fits_of_decode : ∀ j a, decode j = some a → fits a = true
  fits_missing : ∀ a, missing = some a → fits a = true := by simp

namespace Codec

variable {α β : Type}

/-! ## Values -/

def bool : Codec Bool where
  fits _ := true
  encode := .bool
  decode
    | .bool b => some b
    | _ => none
  decode_encode _ _ := rfl
  fits_of_decode _ _ _ := rfl

def string : Codec String where
  fits _ := true
  encode := .string
  decode
    | .string s => some s
    | _ => none
  decode_encode _ _ := rfl
  fits_of_decode _ _ _ := rfl

/-- An unsigned integer type with the given largest value. -/
def natural (max : Nat) : Codec Nat where
  fits n := n ≤ max
  encode := .natural
  decode
    | .natural n => if n ≤ max then some n else none
    | _ => none
  decode_encode n h := if_pos (of_decide_eq_true h)
  fits_of_decode j n h := by
    cases j with
    | natural m =>
        obtain ⟨hm, h⟩ := Option.ite_none_right_eq_some.mp h
        cases h
        exact decide_eq_true hm
    | null | bool | number | string | array | object => cases h

/-- An enumeration of named constants. A constant is also read from an object with its name alone, whose value is
`null`. -/
def constants [DecidableEq α] (all : List α) (name : α → String) (hnames : (all.map name).Nodup) : Codec α where
  fits a := a ∈ all
  encode a := .string (name a)
  decode
    | .string s | .object [(s, .null)] => all.find? fun a => name a = s
    | _ => none
  decode_encode a h := (find_key_eq_some hnames).mpr ⟨of_decide_eq_true h, rfl⟩
  fits_of_decode j a h := by
    split at h
    · exact decide_eq_true (List.mem_of_find?_eq_some h)
    · exact decide_eq_true (List.mem_of_find?_eq_some h)
    · cases h

/-! ## Lists and options -/

def list (c : Codec α) : Codec (List α) where
  fits l := l.all c.fits
  encode l := .array (l.map c.encode)
  decode
    | .array items => items.mapM c.decode
    | _ => none
  decode_encode l h := by
    induction l with
    | nil => rfl
    | cons a l ih =>
        rw [List.all_cons, Bool.and_eq_true] at h
        have hl : (l.map c.encode).mapM c.decode = some l := ih h.2
        simp [List.mapM_cons, c.decode_encode a h.1, hl]
  fits_of_decode j l h := by
    cases j with
    | array items =>
        change items.mapM c.decode = some l at h
        induction items generalizing l with
        | nil => cases h; rfl
        | cons j items ih =>
            simp only [List.mapM_cons, Option.bind_eq_bind, Option.bind_eq_some_iff] at h
            obtain ⟨a, ha, l', hl, h⟩ := h
            cases h
            rw [List.all_cons, Bool.and_eq_true]
            exact ⟨c.fits_of_decode j a ha, ih l' hl⟩
    | null | bool | natural | number | string | object => cases h

/-- `null` is the missing value, and so is an absent member. -/
def option (c : Codec α) (hnull : ∀ a, c.encode a ≠ .null) : Codec (Option α) where
  fits o := o.all c.fits
  encode o := (o.map c.encode).getD .null
  decode
    | .null => some none
    | j => (c.decode j).map some
  missing := some none
  decode_encode o h := by
    cases o with
    | none => rfl
    | some a =>
        have ha : c.decode (c.encode a) = some a := c.decode_encode a h
        have hne := hnull a
        simp only [Option.map_some, Option.getD_some]
        cases he : c.encode a with
        | null => exact absurd he hne
        | bool | natural | number | string | array | object =>
            rw [he] at ha
            simp [ha]
  fits_of_decode j o h := by
    cases j with
    | null => cases h; rfl
    | bool | natural | number | string | array | object =>
        obtain ⟨a, ha, rfl⟩ := Option.map_eq_some_iff.mp h
        exact c.fits_of_decode _ a ha
  fits_missing o h := by cases h; rfl

end Codec

/-! ## Records -/

/-- The named fields of a record, in their order. -/
inductive Fields : Type → Type 1 where
  | nil : Fields Unit
  | cons {α β : Type} (name : String) (c : Codec α) (rest : Fields β) : Fields (α × β)

namespace Fields

def names : {α : Type} → Fields α → List String
  | _, nil => []
  | _, cons name _ rest => name :: rest.names

def fits : {α : Type} → Fields α → α → Bool
  | _, nil, _ => true
  | _, cons _ c rest, (a, b) => c.fits a && rest.fits b

def members : {α : Type} → Fields α → α → List (String × Json)
  | _, nil, _ => []
  | _, cons name c rest, (a, b) => (name, c.encode a) :: rest.members b

/-- The one member of the name. A name that occurs twice is an error. -/
def readMember {α : Type} (name : String) (c : Codec α) (members : List (String × Json)) : Option α :=
  match members.filter (·.1 = name) with
  | [] => c.missing
  | [m] => c.decode m.2
  | _ => none

/-- Members of other names are skipped. -/
def readObject : {α : Type} → Fields α → List (String × Json) → Option α
  | _, nil, _ => some ()
  | _, cons name c rest, ms => (readMember name c ms).bind fun a => (rest.readObject ms).map fun b => (a, b)

/-- The values without their names. -/
def readArray : {α : Type} → Fields α → List Json → Option α
  | _, nil, [] => some ()
  | _, cons _ c rest, j :: js => (c.decode j).bind fun a => (rest.readArray js).map fun b => (a, b)
  | _, _, _ => none

variable {α : Type}

theorem names_members (f : Fields α) (a : α) : (f.members a).map (·.1) = f.names := by
  induction f with
  | nil => rfl
  | cons name c rest ih => exact congrArg (name :: ·) (ih a.2)

theorem readObject_members {f : Fields α} (hf : f.names.Nodup) {a : α} (ha : f.fits a = true)
    {extra : List (String × Json)} (hextra : ∀ m ∈ extra, m.1 ∉ f.names) :
    f.readObject (extra ++ f.members a) = some a := by
  induction f generalizing extra with
  | nil => rfl
  | cons name c rest ih =>
      obtain ⟨hname, hrest⟩ := List.nodup_cons.mp hf
      obtain ⟨hc, hfits⟩ := Bool.and_eq_true_iff.mp ha
      have hmiss : ∀ ms : List (String × Json), (∀ m ∈ ms, m.1 ≠ name) → ms.filter (·.1 = name) = [] := by
        intro ms hms
        rw [List.filter_eq_nil_iff]
        exact fun m hm => by simpa using hms m hm
      have hextra' : ∀ m ∈ extra, m.1 ≠ name ∧ m.1 ∉ rest.names := by
        intro m hm
        have hnot := hextra m hm
        rw [names, List.mem_cons, not_or] at hnot
        exact hnot
      have hmembers : ∀ m ∈ rest.members a.2, m.1 ≠ name := by
        intro m hm hmn
        rw [← rest.names_members a.2, ← hmn] at hname
        exact hname (List.mem_map_of_mem hm)
      have hread : readMember name c (extra ++ (name, c.encode a.1) :: rest.members a.2) = some a.1 := by
        rw [readMember, List.filter_append, hmiss _ fun m hm => (hextra' m hm).1, List.nil_append,
          List.filter_cons, if_pos (decide_eq_true rfl), hmiss _ hmembers]
        exact c.decode_encode a.1 hc
      have hothers : rest.readObject (extra ++ (name, c.encode a.1) :: rest.members a.2) = some a.2 := by
        rw [List.append_cons]
        refine ih hrest hfits fun m hm => ?_
        rcases List.mem_append.mp hm with hm | hm
        · exact (hextra' m hm).2
        · rw [List.mem_singleton.mp hm]; exact hname
      simp only [readObject, members, hread, hothers, Option.bind_some, Option.map_some]

theorem fits_of_readMember {name : String} {c : Codec α} {ms : List (String × Json)} {a : α}
    (h : readMember name c ms = some a) : c.fits a = true := by
  unfold readMember at h
  split at h
  · exact c.fits_missing a h
  · exact c.fits_of_decode _ a h
  · cases h

theorem fits_of_readObject {f : Fields α} {ms : List (String × Json)} {a : α} (h : f.readObject ms = some a) :
    f.fits a = true := by
  induction f with
  | nil => rfl
  | cons name c rest ih =>
      obtain ⟨x, hx, h⟩ := Option.bind_eq_some_iff.mp h
      obtain ⟨b, hb, rfl⟩ := Option.map_eq_some_iff.mp h
      exact Bool.and_eq_true_iff.mpr ⟨fits_of_readMember hx, ih hb⟩

theorem fits_of_readArray {f : Fields α} {js : List Json} {a : α} (h : f.readArray js = some a) :
    f.fits a = true := by
  induction f generalizing js with
  | nil => rfl
  | cons name c rest ih =>
      cases js with
      | nil => cases h
      | cons j js =>
          obtain ⟨x, hx, h⟩ := Option.bind_eq_some_iff.mp h
          obtain ⟨b, hb, rfl⟩ := Option.map_eq_some_iff.mp h
          exact Bool.and_eq_true_iff.mpr ⟨c.fits_of_decode j x hx, ih hb⟩

end Fields

/-- A record is written as an object, and read from an object or from the array of its values. -/
def Codec.record {α β : Type} (f : Fields β) (hf : f.names.Nodup) (e : α ≃ β) : Codec α where
  fits a := f.fits (e a)
  encode a := .object (f.members (e a))
  decode
    | .object ms => (f.readObject ms).map e.symm
    | .array js => (f.readArray js).map e.symm
    | _ => none
  decode_encode a h := by
    have hread : f.readObject ([] ++ f.members (e a)) = some (e a) := Fields.readObject_members hf h (by simp)
    rw [List.nil_append] at hread
    simp [hread]
  fits_of_decode j a h := by
    cases j with
    | object ms =>
        obtain ⟨b, hb, rfl⟩ := Option.map_eq_some_iff.mp h
        rw [e.apply_symm_apply]
        exact Fields.fits_of_readObject hb
    | array js =>
        obtain ⟨b, hb, rfl⟩ := Option.map_eq_some_iff.mp h
        rw [e.apply_symm_apply]
        exact Fields.fits_of_readArray hb
    | null | bool | natural | number | string => cases h

/-! ## What fits -/

section Fits

variable {α β : Type}

@[simp] theorem Codec.fits_bool (b : Bool) : Codec.bool.fits b = true := rfl

@[simp] theorem Codec.fits_string (s : String) : Codec.string.fits s = true := rfl

@[simp] theorem Codec.fits_natural (max n : Nat) : (Codec.natural max).fits n = decide (n ≤ max) := rfl

@[simp] theorem Codec.fits_list (c : Codec α) (l : List α) : c.list.fits l = l.all c.fits := rfl

@[simp] theorem Codec.fits_option (c : Codec α) (hnull : ∀ a, c.encode a ≠ .null) (o : Option α) :
    (c.option hnull).fits o = o.all c.fits := rfl

@[simp] theorem Fields.fits_nil (u : Unit) : Fields.nil.fits u = true := rfl

@[simp] theorem Fields.fits_cons (name : String) (c : Codec α) (rest : Fields β) (a : α) (b : β) :
    (Fields.cons name c rest).fits (a, b) = (c.fits a && rest.fits b) := rfl

@[simp] theorem Codec.fits_record (f : Fields β) (hf : f.names.Nodup) (e : α ≃ β) (a : α) :
    (Codec.record f hf e).fits a = f.fits (e a) := rfl

end Fits

end Lib
