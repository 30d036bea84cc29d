import MemoryGraph.Batch.Commit
import MemoryGraph.Store.Overwrite

/-! A fingerprint says the bytes, the language, the extractor's version and the decoding of
a file, so that files with one fingerprint have one extraction. -/

namespace MemoryGraph
open Lib Codec List
variable {e e' : Encoding}

theorem append_sep_inj_right {c : Char} {a b x y : List Char} (hx : c ∉ x) (hy : c ∉ y)
    (h : a ++ c :: x = b ++ c :: y) : a = b ∧ x = y := by
  have hrev := congrArg reverse h
  rw [reverse_append, reverse_append, reverse_cons, reverse_cons, append_assoc,
    append_assoc] at hrev
  obtain ⟨hxy, hab⟩ := append_sep_inj (fun hm => hx (mem_reverse.mp hm)) (fun hm =>
    hy (mem_reverse.mp hm)) hrev
  exact ⟨reverse_inj.mp hab, reverse_inj.mp hxy⟩

theorem Encoding.ext (h : e.name = e'.name) : e = e' := by
  cases e
  cases e'
  cases h
  rfl

def decodingField (e : Encoding) (lossy : Bool) : List Char :=
  "enc=".toList ++ (e.name.toList ++ ((if lossy then "+lossy".toList else []) ++ "@1".toList))

theorem bar_notMem_decodingField (e : Encoding) (lossy : Bool) : '|' ∉ decodingField e lossy := by
  have h := e.plain '|' (by decide)
  cases lossy <;> simp [decodingField, h]

theorem decodingField_inj {lossy lossy' : Bool}
    (h : decodingField e lossy = decodingField e' lossy') : e = e' ∧ lossy = lossy' := by
  have hname := append_cancel_left h
  rw [← append_assoc, ← append_assoc] at hname
  have hname := append_cancel_right hname
  have hplus : ∀ (e : Encoding) (x : List Char), e.name.toList ≠ x ++ "+lossy".toList := by
    intro e x heq
    exact e.plain '+' (by decide) (heq ▸ mem_append_right x (by decide))
  cases lossy <;> cases lossy'
  · simp only [Bool.false_eq_true, if_false, append_nil] at hname
    exact ⟨Encoding.ext (String.toList_inj.mp hname), rfl⟩
  · simp only [Bool.false_eq_true, if_false, if_true, append_nil] at hname
    exact absurd hname (hplus e _)
  · simp only [Bool.false_eq_true, if_false, if_true, append_nil] at hname
    exact absurd hname.symm (hplus e' _)
  · simp only [if_true] at hname
    exact ⟨Encoding.ext (String.toList_inj.mp (append_cancel_right hname)), rfl⟩

def toldDecoding (e : Encoding) (lossy : Bool) : Bool := e ≠ .utf8 ∨ lossy

theorem toList_fingerprint (x : Indexer) (bytes : List UInt8) (lang : String) (e : Encoding)
    (lossy : Bool) :
    (x.fingerprint bytes lang e lossy).toList = "sha256:".toList ++
      ((x.sha256 bytes).flatMap hexByte ++ '|' ::
        (((asciiLower lang).toList ++ '|' :: (x.registry.version lang).toList) ++ '|' :: '1' ::
        if toldDecoding e lossy then '|' :: decodingField e lossy else [])) := by
  unfold Indexer.fingerprint decodingField
  by_cases h : e ≠ .utf8 ∨ lossy = true
  · have htold : toldDecoding e lossy = true := decide_eq_true h
    rw [htold, if_pos h]
    cases lossy <;> simp
  · have htold : toldDecoding e lossy = false := decide_eq_false h
    rw [htold, if_neg h]
    simp

theorem fingerprint_inj {x y : Indexer} {b b' : List UInt8} {l l' : String} {z z' : Bool}
    (hx : '|' ∉ (x.registry.version l).toList) (hy : '|' ∉ (y.registry.version l').toList)
    (h : x.fingerprint b l e z = y.fingerprint b' l' e' z') :
    x.sha256 b = y.sha256 b' ∧ asciiLower l = asciiLower l' ∧
      x.registry.version l = y.registry.version l' ∧ e = e' ∧ z = z' := by
  have hlist := congrArg String.toList h
  rw [toList_fingerprint, toList_fingerprint] at hlist
  have hhex : ∀ bs : List UInt8, '|' ∉ bs.flatMap hexByte := notMem_hex (by decide)
  obtain ⟨hsha, hrest⟩ := append_sep_inj (hhex _) (hhex _) (append_cancel_left hlist)
  have hone : '|' ∉ ['1'] := by decide
  have hfields : ∀ {p q : List Char}, p ++ '|' :: ['1'] = q ++ '|' :: ['1'] → p = q := fun hpq =>
    (append_sep_inj_right hone hone hpq).1
  have hlang : (asciiLower l).toList ++ '|' :: (x.registry.version l).toList =
      (asciiLower l').toList ++ '|' :: (y.registry.version l').toList →
      asciiLower l = asciiLower l' ∧ x.registry.version l = y.registry.version l' := by
    intro heq
    obtain ⟨h1, h2⟩ := append_sep_inj_right hx hy heq
    exact ⟨String.toList_inj.mp h1, String.toList_inj.mp h2⟩
  have hdec : ∀ {p q : List Char} {e : Encoding} {z : Bool}, p ++ '|' :: ['1'] ≠
      q ++ '|' :: '1' :: '|' :: decodingField e z := by
    intro p q e z heq
    have hassoc : q ++ '|' :: '1' :: '|' :: decodingField e z = (q ++ '|' :: ['1']) ++ '|' ::
        decodingField e z := by
      simp
    rw [hassoc] at heq
    have hfield := (append_sep_inj_right hone (bar_notMem_decodingField e z) heq).2
    exact absurd hfield (by simp [decodingField])
  have hplain : ∀ {e : Encoding} {z : Bool}, toldDecoding e z = false → e = .utf8 ∧ z = false := by
    intro e z hp
    simpa [toldDecoding] using hp
  refine ⟨hexBytes_injective hsha, ?_⟩
  cases hp : toldDecoding e z <;> cases hq : toldDecoding e' z'
  · rw [hp, hq] at hrest
    obtain ⟨h1, h2⟩ := hlang (hfields hrest)
    obtain ⟨rfl, rfl⟩ := hplain hp
    obtain ⟨rfl, rfl⟩ := hplain hq
    exact ⟨h1, h2, rfl, rfl⟩
  · rw [hp, hq] at hrest
    exact absurd hrest hdec
  · rw [hp, hq] at hrest
    exact absurd hrest.symm hdec
  · rw [hp, hq] at hrest
    have hassoc : ∀ (q : List Char) (e : Encoding) (z : Bool), q ++ '|' :: '1' :: '|' ::
        decodingField e z = (q ++ '|' :: ['1']) ++ '|' :: decodingField e z := fun q e z => by simp
    simp only [if_true, hassoc] at hrest
    obtain ⟨h3, h4⟩ := append_sep_inj_right (bar_notMem_decodingField e z)
      (bar_notMem_decodingField e' z') hrest
    obtain ⟨h1, h2⟩ := hlang (hfields h3)
    exact ⟨h1, h2, decodingField_inj h4⟩

end MemoryGraph
