import MemoryGraph.Codec.DictBlock
import MemoryGraph.Lib.Search

/-! The term dictionary: keys to ids, and the packed reverse table of blocks. The digest
is a parameter. -/

namespace MemoryGraph
open Lib Codec

structure Dict where
  dict : Table String Nat
  rev : Table Nat (List UInt8)
  nextTerm : Nat
deriving DecidableEq

def Dict.empty : Dict := ⟨Table.empty, Table.empty, 0⟩

def maxInlineTerm : Nat := 256

def dictBlockMaxBytes : Nat := 65536

def hexByte (b : UInt8) : List Char := [(b.toNat / 16).digitChar, (b.toNat % 16).digitChar]

def isHashed (text : String) : Bool :=
  maxInlineTerm < (utf8 text).length || text.toList.head? = some '\x00'

def probeBlock (rev : Table Nat (List UInt8)) (id mid : Nat) : Except StoreError Bool :=
  match rev.get mid with
  | none => .error (.corrupt ("missing dict block " ++ toString mid))
  | some block => do
    let first ← dictBlockFirstId block
    match first with
    | none => .error (.corrupt ("empty dict block " ++ toString mid))
    | some first => return first ≤ id

def dictRevBlock (rev : Table Nat (List UInt8)) (id : Nat) :
    Except StoreError (Option (List UInt8)) := do
  let lo ← partitionPoint (probeBlock rev id) rev.len 0 rev.len
  return if lo = 0 then none else rev.get (lo - 1)

def dictRevLookup (rev : Table Nat (List UInt8)) (id : Nat) : Except StoreError
    (Option String) := do
  let block ← dictRevBlock rev id
  match block with
  | none => return none
  | some block => dictBlockFind block id

def dictBlockIsFull (encodedLen entries : Nat) : Bool :=
  dictBlockMaxBytes ≤ encodedLen || dictBlock ≤ entries

def dictRevAppend (rev : Table Nat (List UInt8)) (id : Nat) (text : String) :
    Except StoreError (Table Nat (List UInt8)) :=
  if rev.len = 0 then return rev.insert rev.len (encodeDictBlock [(id, text)])
  else match rev.get (rev.len - 1) with
    | none => .error (.panic "last dict block is missing")
    | some block => do
      let count ← dictBlockEntryCount block
      if dictBlockIsFull block.length count then
        return rev.insert rev.len (encodeDictBlock [(id, text)])
      else do
        let entries ← decodeDictBlock block
        return rev.insert (rev.len - 1) (encodeDictBlock (entries ++ [(id, text)]))

structure Packing where
  blocks : List (List UInt8)
  current : List (Nat × String)
  bodyLen : Nat

def Packing.push (p : Packing) (e : Nat × String) : Packing :=
  if p.current ≠ [] ∧ dictBlockIsFull (dictBlockCountLen p.current.length + p.bodyLen)
    p.current.length then
    ⟨p.blocks ++ [encodeDictBlock p.current], [e], dictEntryEncodedLen e.1 e.2⟩
  else ⟨p.blocks, p.current ++ [e], p.bodyLen + dictEntryEncodedLen e.1 e.2⟩

def packDictBlocks (entries : List (Nat × String)) : List (List UInt8) :=
  let p := entries.foldl Packing.push ⟨[], [], 0⟩
  if p.current = [] then p.blocks else p.blocks ++ [encodeDictBlock p.current]

variable (sha256 : List UInt8 → List UInt8)

def hashedKey (text : String) (n : Nat) : String :=
  String.ofList ('\x00' :: (sha256 (utf8 text)).flatMap hexByte) ++ if 0 < n then "." ++
    toString n else ""

def lastProbe : Nat := 4294967295

/-- The probe loop over `hashed_key(text, n)`. Every key tried before is taken, so it ends
within one more than the rows of `dict`. -/
def dictKeyGo (d : Dict) (text : String) (id : Option Nat) : Nat → Nat →
    Except StoreError (String × Option Nat)
  | 0, _ => .error (.panic "entered unreachable code")
  | fuel + 1, n =>
    if lastProbe ≤ n then .error (.panic "attempt to add with overflow")
    else match d.dict.get (hashedKey sha256 text n) with
      | none => return (hashedKey sha256 text n, none)
      | some found => do
        let same ← match id with
          | some i => pure (decide (i = found))
          | none => do
            let t ← dictRevLookup d.rev found
            pure (decide (t = some text))
        if same then return (hashedKey sha256 text n, some found)
        else dictKeyGo d text id fuel (n + 1)

def dictKey (d : Dict) (text : String) (id : Option Nat) :
    Except StoreError (String × Option Nat) :=
  if isHashed text then dictKeyGo sha256 d text id (d.dict.len + 1) 0
  else return (text, d.dict.get text)

def Dict.lookupGo (d : Dict) (text : String) : Nat → Nat → Except StoreError (Option Nat)
  | 0, _ => .error (.panic "entered unreachable code")
  | fuel + 1, n =>
    if lastProbe ≤ n then .error (.panic "attempt to add with overflow")
    else match d.dict.get (hashedKey sha256 text n) with
      | none => return none
      | some id => do
        let t ← dictRevLookup d.rev id
        if t = some text then return some id else d.lookupGo text fuel (n + 1)

def Dict.lookup (d : Dict) (text : String) : Except StoreError (Option Nat) :=
  if isHashed text then d.lookupGo sha256 text (d.dict.len + 1) 0
  else return d.dict.get text

def intern (d : Dict) (text : String) : Except StoreError (Dict × Nat) := do
  let (key, found) ← dictKey sha256 d text none
  match found with
  | some v => return (d, v)
  | none => do
    failIf (usizeMax ≤ d.nextTerm) (StoreError.panic "attempt to add with overflow")
    let rev ← dictRevAppend d.rev d.nextTerm text
    return (⟨d.dict.insert key d.nextTerm, rev, d.nextTerm + 1⟩, d.nextTerm)

def internAll (d : Dict) : List String → Except StoreError (Dict × List Nat)
  | [] => return (d, [])
  | t :: ts => do
    let (d, id) ← intern sha256 d t
    let (d, ids) ← internAll d ts
    return (d, id :: ids)

def Dict.text (d : Dict) (term : Nat) : Except StoreError String := do
  let t ← dictRevLookup d.rev term
  match t with
  | some t => return t
  | none => throw (.corrupt ("dangling term " ++ toString term))

end MemoryGraph
