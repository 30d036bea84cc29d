import MemoryGraph.Schema

/-! Source decoding. The decoders, the byte-order mark table and the detector are those of
`encoding_rs` and `chardetng`, and stand as parameters. -/

namespace MemoryGraph

/-- An encoding of `encoding_rs`, which compares by name. -/
structure Encoding where
  name : String
  named : name ≠ ""
  plain : ∀ c ∈ ['|', '+', '@', '\x00'], c ∉ name.toList

instance : DecidableEq Encoding := fun a b =>
  decidable_of_iff (a.name = b.name)
    ⟨fun h => by cases a; cases b; cases h; rfl, fun h => by rw [h]⟩

namespace Encoding

def utf8 : Encoding := ⟨"UTF-8", by decide, by simp⟩

def utf16LE : Encoding := ⟨"UTF-16LE", by decide, by simp⟩

def utf16BE : Encoding := ⟨"UTF-16BE", by decide, by simp⟩

def iso2022JP : Encoding := ⟨"ISO-2022-JP", by decide, by simp⟩

def windows1252 : Encoding := ⟨"windows-1252", by decide, by simp⟩

def replacement : Encoding := ⟨"replacement", by decide, by simp⟩

def detectable : List String :=
  ["windows-1250", "windows-1251", "windows-1252", "windows-1253", "windows-1254", "windows-1255",
    "windows-1256", "windows-1257", "windows-1258", "windows-874", "ISO-8859-2", "ISO-8859-3",
    "ISO-8859-4", "ISO-8859-5", "ISO-8859-6", "ISO-8859-7", "ISO-8859-8", "ISO-8859-8-I",
    "ISO-8859-10", "ISO-8859-13", "ISO-8859-14", "ISO-8859-15", "ISO-8859-16", "KOI8-R", "KOI8-U",
    "IBM866", "Shift_JIS", "EUC-JP", "ISO-2022-JP", "EUC-KR", "GBK", "gb18030", "Big5"]

def isDetectable (e : Encoding) : Bool := e.name ∈ detectable

end Encoding

/-- The decoders: `decode` replaces what is invalid and says whether it did, `strict`
refuses it; `fromUtf8` is `str::from_utf8`, `guess` the detector's answer. -/
structure Codecs where
  forBom : List UInt8 → Option Encoding
  decode : Encoding → List UInt8 → String × Bool
  strict : Encoding → List UInt8 → Option String
  fromUtf8 : List UInt8 → Option String
  guess : List UInt8 → Encoding

/-- What the decoders agree on: a text that is valid is decoded to itself. -/
structure Codecs.Lawful (c : Codecs) : Prop where
  strict : ∀ e bytes text, c.strict e bytes = some text → c.decode e bytes = (text, false)
  fromUtf8 : ∀ bytes text, c.fromUtf8 bytes = some text → c.decode .utf8 bytes = (text, false)

def utf16SniffWindow : Nat := 4096

def everyOther : List UInt8 → List UInt8
  | [] => []
  | [b] => [b]
  | b :: _ :: bs => b :: everyOther bs

namespace Codecs

structure Decoded where
  text : String
  encoding : Encoding
  lossy : Bool
deriving DecidableEq

variable (c : Codecs)

def candidate (bytes : List UInt8) (units high low : Nat) (e : Encoding) :
    Option (Nat × Encoding) :=
  let asciiHeavy := units ≤ high * 2
  let cjk := c.fromUtf8 bytes = none ∧ 0 < high ∧ units ≤ high * 64
  if ¬ (asciiHeavy ∨ cjk) ∨ units ≤ low * 16 then none
  else
    match c.strict e bytes with
    | none => none
    | some text =>
      if text.toList.any (fun ch => ch < ' ' ∧ ch ∉ ['\t', '\n', '\x0c', '\r']) then none
        else some (high, e)

def sniffUtf16 (bytes : List UInt8) : Option Encoding :=
  let size := min bytes.length utf16SniffWindow
  let window := bytes.take (size - size % 2)
  if window = [] then none
  else
    let units := window.length / 2
    let evenNuls := (everyOther window).count 0
    let oddNuls := (everyOther (window.drop 1)).count 0
    match c.candidate bytes units oddNuls evenNuls .utf16LE,
      c.candidate bytes units evenNuls oddNuls .utf16BE with
    | some l, some b => if l.1 < b.1 then some b.2 else some l.2
    | some l, none => some l.2
    | none, some b => some b.2
    | none, none => none

def looksLikeIso2022Jp (bytes : List UInt8) : Bool :=
  bytes.all (· < 128) && (bytes.zip ((bytes.drop 1).zip (bytes.drop 2))).any
    (fun w => w.1 = 0x1b && w.2.1 = 0x24 && (w.2.2 = 0x40 || w.2.2 = 0x42))

def decodeWith (e : Encoding) (bytes : List UInt8) : Decoded :=
  ⟨(c.decode e bytes).1, e, (c.decode e bytes).2⟩

def decodeDetected (bytes : List UInt8) : Decoded :=
  match c.fromUtf8 bytes with
  | some text => ⟨text, .utf8, false⟩
  | none =>
    if (c.guess bytes).isDetectable then
      match c.strict (c.guess bytes) bytes with
      | some text => ⟨text, c.guess bytes, false⟩
      | none => c.decodeWith .windows1252 bytes
    else c.decodeWith .windows1252 bytes

def decodeUnhinted (bytes : List UInt8) : Decoded :=
  match c.sniffUtf16 bytes with
  | some e => c.decodeWith e bytes
  | none =>
    if looksLikeIso2022Jp bytes then
      match c.strict .iso2022JP bytes with
      | some text => ⟨text, .iso2022JP, false⟩
      | none => c.decodeDetected bytes
    else c.decodeDetected bytes

def decodeSource (bytes : List UInt8) (hint : Option Encoding) : Decoded :=
  match c.forBom bytes with
  | some e => c.decodeWith e bytes
  | none =>
    match hint.filter (· ≠ .replacement) with
    | some e => c.decodeWith e bytes
    | none => c.decodeUnhinted bytes

def isBinaryWithHint (bytes : List UInt8) (hint : Option Encoding) : Bool :=
  bytes.contains 0 && (c.forBom bytes).isNone && !(hint = some .utf16LE || hint = some .utf16BE) &&
    (c.sniffUtf16 bytes).isNone

variable {c}

theorem decodeWith_eq {e : Encoding} {bytes : List UInt8} {text : String}
    (h : c.decode e bytes = (text, false)) :
    (⟨text, e, false⟩ : Decoded) = c.decodeWith e bytes := by
  rw [decodeWith, h]

theorem decodeDetected_eq (hc : c.Lawful) (bytes : List UInt8) :
    c.decodeDetected bytes = c.decodeWith (c.decodeDetected bytes).encoding bytes := by
  unfold decodeDetected
  cases hu : c.fromUtf8 bytes with
  | some text => exact decodeWith_eq (hc.fromUtf8 bytes text hu)
  | none =>
    dsimp only
    split_ifs
    · cases hs : c.strict (c.guess bytes) bytes with
      | some text => exact decodeWith_eq (hc.strict _ bytes text hs)
      | none => rfl
    · rfl

theorem decodeUnhinted_eq (hc : c.Lawful) (bytes : List UInt8) :
    c.decodeUnhinted bytes = c.decodeWith (c.decodeUnhinted bytes).encoding bytes := by
  unfold decodeUnhinted
  cases c.sniffUtf16 bytes with
  | some e => rfl
  | none =>
    dsimp only
    split_ifs
    · cases hs : c.strict .iso2022JP bytes with
      | some text => exact decodeWith_eq (hc.strict _ bytes text hs)
      | none => exact decodeDetected_eq hc bytes
    · exact decodeDetected_eq hc bytes

theorem decodeSource_eq (hc : c.Lawful) (bytes : List UInt8) (hint : Option Encoding) :
    c.decodeSource bytes hint = c.decodeWith (c.decodeSource bytes hint).encoding bytes := by
  unfold decodeSource
  cases c.forBom bytes with
  | some e => rfl
  | none =>
    cases hint.filter (· ≠ .replacement) with
    | some e => rfl
    | none => exact decodeUnhinted_eq hc bytes

end Codecs
end MemoryGraph
