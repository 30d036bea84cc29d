import Mathlib

/-! Strings through their characters and their UTF-8 bytes. -/

namespace Lib

def utf8 (s : String) : List UInt8 := s.toUTF8.data.toList

def fromUtf8 (bs : List UInt8) : Option String := String.fromUTF8? ⟨bs.toArray⟩

@[simp] theorem fromUtf8_utf8 (s : String) : fromUtf8 (utf8 s) = some s := by
  have h : ByteArray.mk (utf8 s).toArray = s.toUTF8 := by
    cases s
    simp [utf8]
  have hv : s.toUTF8.IsValidUTF8 := s.isValidUTF8
  rw [fromUtf8, h, String.fromUTF8?, dif_pos hv]
  rfl

theorem utf8_injective : Function.Injective utf8 := by
  intro s t h
  have hs := fromUtf8_utf8 s
  rw [h, fromUtf8_utf8] at hs
  exact (Option.some.inj hs).symm

theorem utf8_eq_flatMap (s : String) : utf8 s = s.toList.flatMap String.utf8EncodeChar := by
  have h : s = String.ofList s.toList := String.ofList_toList.symm
  generalize s.toList = l at *
  subst h
  simp [utf8, String.toUTF8, List.utf8Encode]

theorem utf8_of_fromUtf8 {bytes : List UInt8} {s : String} (h : fromUtf8 bytes = some s) :
    utf8 s = bytes := by
  unfold fromUtf8 String.fromUTF8? at h
  split at h
  · cases h
    simp [utf8, String.fromUTF8]
  · exact nomatch h

end Lib
