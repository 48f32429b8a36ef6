import SliceProfiler.Core.Format
import SliceProfiler.Core.Lemmas.Validate

/-!
# Writing and reading of files
-/

namespace SliceProfiler

open Lib

variable {l : FileLayers} {p q : Profile} {text payload bytes : List UInt8}

theorem dropPrefix_fileMagic : (fileMagic ++ payload).dropPrefix? fileMagic = some payload :=
  List.dropPrefix?_eq_some_iff.mpr ⟨fileMagic, rfl, beq_self_eq_true _⟩

theorem toBytes_of_layers (htext : l.toVec (profileCodec.encode p) = some text)
    (hpayload : l.encodeAll text 9 = some payload) : p.toBytes l = .ok (fileMagic ++ payload) := by
  simp only [Profile.toBytes, htext, hpayload, require_some, ok_bind]

/-- Once both layers have read a profile, its version and its validation decide. -/
theorem fromBytes_of_layers (hp : p.Fits) (hraw : l.decodeAll payload = some text)
    (hread : l.fromSlice text = some (profileCodec.encode p)) :
    Profile.fromBytes l (fileMagic ++ payload) =
      if p.formatVersion = 1 then (p.validate.mapError .invalidProfile).map fun _ => p
      else .error (.unsupportedVersion p.formatVersion) := by
  have hdecode : (l.fromSlice text).bind profileCodec.decode = some p := by
    rw [hread]
    exact profileCodec.decode_encode p hp
  simp only [Profile.fromBytes, dropPrefix_fileMagic, hraw, hdecode, require_some, ok_bind, ensure]
  split
  · cases p.validate <;> rfl
  · rfl

theorem fromBytes_of_valid (hp : p.Fits) (hv : p.validate = .ok ()) (hraw : l.decodeAll payload = some text)
    (hread : l.fromSlice text = some (profileCodec.encode p)) : Profile.fromBytes l (fileMagic ++ payload) = .ok p := by
  rw [fromBytes_of_layers hp hraw hread, if_pos (Profile.WellFormed.of_validate hv).version, hv]
  rfl

/-- What a profile that was read says of the bytes. -/
theorem of_fromBytes (h : Profile.fromBytes l bytes = .ok q) :
    fileMagic <+: bytes ∧ q.Fits ∧ q.formatVersion = 1 ∧ q.validate = .ok () := by
  simp only [Profile.fromBytes, bind_eq_ok, require_eq_ok, ensure_eq_ok, mapError_eq_ok] at h
  obtain ⟨payload, hmagic, text, -, p, hp, -, hversion, _, hv, h⟩ := h
  cases h
  obtain ⟨tree, -, hdecode⟩ := Option.bind_eq_some_iff.mp hp
  obtain ⟨start, rfl, hstart⟩ := List.dropPrefix?_eq_some_iff.mp hmagic
  rw [beq_iff_eq.mp hstart]
  exact ⟨List.prefix_append _ _, profileCodec.fits_of_decode tree q hdecode, hversion, hv⟩

end SliceProfiler
