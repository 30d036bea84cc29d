import MemoryGraph.Store.Ingest

/-! The reads of one transaction: nodes by id, and the tree over them. Entities are rows;
symbols and tokens are computed from the stream of their file. -/

namespace MemoryGraph
open Lib Codec

namespace Data
variable (d : Data)

def need (id : Nat) : Except StoreError Node :=
  match d.nodes.get id with
  | some n => .ok n
  | none => .error (.corrupt ("dangling node " ++ toString id))

def stream (file : Nat) : Except StoreError (Option Stream) :=
  match d.streams.get file with
  | some b => some <$> decode b
  | none => return none

def withBytes {α : Type} (file : Nat) (f : List UInt8 → Except StoreError α) :
    Except StoreError (Option α) :=
  match d.streams.get file with
  | some b => some <$> f b
  | none => return none

def withLazy {α : Type} (file : Nat) (f : Lazy → Except StoreError α) :
    Except StoreError (Option α) :=
  d.withBytes file (fun b => decodeLazy b >>= f)

def get (id : Nat) : Except StoreError (Option Node) :=
  let (tag, file, i) := splitId id
  if tag = 0 then return d.nodes.get id
  else do
    let found ← d.withLazy file fun lz =>
      if tag = tagSym ∧ i < lz.nsym then do
        let syms ← lz.symbols
        some <$> symNode d.terms.text file i syms
      else if tag = tagTok ∧ i < lz.ntok then do
        match ← lz.tokensAt [i] (fun _ t _ => some t) none with
        | some t => some <$> tokNode d.terms.text file i t
        | none => return none
      else return none
    return found.join

def parent (id : Nat) : Except StoreError (Option Node) := do
  match (← d.get id).bind Node.parent with
  | some p => d.get p
  | none => return none

def kids (id : Nat) : Except StoreError (List Node) := (d.children.get id).mapM d.need

def childrenOfSymbol (file i : Nat) : Except StoreError (List Node) := do
  match (← d.withBytes file (childrenRanged d.terms.text file i)).join with
  | some out => return out
  | none => return (← d.withBytes file (childrenFallback d.terms.text file i)).getD []

def childrenOfFile (file : Nat) : Except StoreError (List Node) := do
  match (← d.withBytes file (childrenRangedFile d.terms.text file)).join with
  | some out => return out
  | none => return (← d.withBytes file (childrenFile d.terms.text file)).getD []

def childrenOf (id : Nat) : Except StoreError (List Node) :=
  let (tag, file, i) := splitId id
  if tag = 0 then
    match d.nodes.get id with
    | none => return []
    | some n => if n.kind = .file then d.childrenOfFile id else d.kids id
  else if tag ≠ tagSym then return []
  else d.childrenOfSymbol file i

def descendantsOfFile (file : Nat) : Except StoreError (List Node) := do
  match (← d.withBytes file (descendantsRangedFile d.terms.text file)).join with
  | some out => return out
  | none => return (← d.withBytes file (fileWalk d.terms.text file none)).getD []

def descendantsOfSymbol (file i : Nat) : Except StoreError (List Node) := do
  match (← d.withBytes file (descendantsRanged d.terms.text file i)).join with
  | some out => return out
  | none => return (← d.withBytes file (fileWalk d.terms.text file (some i))).getD []

def descendantsGo : Nat → Nat → Except StoreError (List Node)
  | 0, _ => .error (.panic "descendants too deep")
  | fuel + 1, id =>
    let (tag, file, i) := splitId id
    if tag = 0 then
      match d.nodes.get id with
      | none => return []
      | some n =>
        if n.kind = .file then d.descendantsOfFile id
        else do
          let subs ← (d.children.get id).mapM fun k => do
            let c ← d.need k
            let sub ← if c.kind = .file then d.descendantsOfFile c.id else descendantsGo fuel c.id
            return c :: sub
          return subs.flatten
    else if tag = tagSym then d.descendantsOfSymbol file i
    else return []

def descendants (id : Nat) : Except StoreError (List Node) := d.descendantsGo (d.nodes.len + 1) id

def symbolsUp (file : Nat) (syms : List SymRec) : Nat → Option U32 → Except StoreError (List Node)
  | _, none => return []
  | 0, some _ => .error (.panic "symbols too deep")
  | fuel + 1, some p => do
    let n ← symNode d.terms.text file p.val syms
    let rest ← symbolsUp file syms fuel (syms[p.val]?.bind SymRec.parent)
    return n :: rest

def entitiesUp : Nat → Option Nat → Except StoreError (List Node)
  | _, none => return []
  | 0, some _ => .error (.panic "entities too deep")
  | fuel + 1, some p => do
    let n ← d.need p
    let rest ← entitiesUp fuel n.parent
    return n :: rest

def ancestors (id : Nat) : Except StoreError (List Node) :=
  let (tag, file, i) := splitId id
  if tag = 0 then d.entitiesUp (d.nodes.len + 1) ((d.nodes.get id).bind Node.parent)
  else do
    let done ← d.withLazy file fun lz => do
      let syms ← lz.symbols
      if tag = tagSym ∧ i < syms.length then
        some <$> d.symbolsUp file syms (syms.length + 1) (syms[i]?.bind SymRec.parent)
      else if tag = tagTok ∧ i < lz.ntok then do
        let parent ← lz.tokensAt [i] (fun _ t _ => t.parent) none
        some <$> d.symbolsUp file syms (syms.length + 1) parent
      else return none
    match done.join with
    | none => return []
    | some out => return out ++ (← d.entitiesUp (d.nodes.len + 1) (some file))

def fileTokens (org repo path : String) : Except StoreError (Option (List Node)) :=
  match d.fileId org repo (normalizePath path) with
  | none => return none
  | some f => do
    match ← d.stream f with
    | none => .error (.corrupt ("file " ++ toString f ++ " without stream"))
    | some s => some <$> s.tokens.zipIdx.mapM (fun p => tokNode d.terms.text f p.2 p.1)

end Data
end MemoryGraph
