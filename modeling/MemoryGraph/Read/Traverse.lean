import MemoryGraph.Codec.Lazy
import MemoryGraph.Lib.Interleave

/-! Nodes of one stream and its containment tree: the eager walk over a fully decoded stream, and
the range-based one. `text` reads the dictionary. -/

namespace MemoryGraph
open Lib Codec

def tagSym : Nat := 1

def tagTok : Nat := 2

def maxLocal : Nat := 1073741823

def subId (tag file index : Nat) : Nat := tag <<< 62 ||| file <<< 32 ||| index

def splitId (id : Nat) : Nat × Nat × Nat := (id >>> 62, (id >>> 32) &&& maxLocal, id &&& 0xffffffff)

theorem subId_eq {tag file index : Nat} (hf : file ≤ maxLocal) (hi : index < 4294967296) :
    subId tag file index = tag * 2 ^ 62 + file * 2 ^ 32 + index := by
  have hf' : file < 2 ^ 30 := Nat.lt_succ_of_le hf
  have h1 : file * 2 ^ 32 < 2 ^ 62 := by omega
  have h2 : tag <<< 62 ||| file <<< 32 = (tag * 2 ^ 30 + file) <<< 32 := by
    rw [Nat.shiftLeft_eq file, ← Nat.shiftLeft_add_eq_or_of_lt h1, Nat.shiftLeft_eq,
      Nat.shiftLeft_eq]
    ring
  rw [subId, h2, ← Nat.shiftLeft_add_eq_or_of_lt hi, Nat.shiftLeft_eq]
  ring

theorem splitId_subId {tag file index : Nat} (hf : file ≤ maxLocal) (hi : index < 4294967296) :
    splitId (subId tag file index) = (tag, file, index) := by
  have hf' : file < 2 ^ 30 := Nat.lt_succ_of_le hf
  have hm : ∀ x, x &&& maxLocal = x % 2 ^ 30 := fun x => Nat.and_two_pow_sub_one_eq_mod x 30
  have hl : ∀ x, x &&& 0xffffffff = x % 2 ^ 32 := fun x => Nat.and_two_pow_sub_one_eq_mod x 32
  rw [splitId, subId_eq hf hi, hm, hl, Nat.shiftRight_eq_div_pow, Nat.shiftRight_eq_div_pow]
  refine Prod.ext ?_ (Prod.ext ?_ ?_)
  all_goals
    dsimp only
    omega

variable (text : Nat → Except StoreError String) (file : Nat)

def optText : Option Nat → Except StoreError (Option String)
  | none => return none
  | some k => do
    let t ← text k
    return some t

def parentId (parent : Option U32) : Nat := parent.elim file (fun p => subId tagSym file p.val)

def symRecNode (i : Nat) (r : SymRec) : Except StoreError Node := do
  let name ← text r.name
  let langKind ← optText text r.langKind
  return { blank (subId tagSym file i) (some (parentId file r.parent)) .symbol name with
    symbolKind := some r.kind, langKind, span := some r.span }

def symNode (i : Nat) (syms : List SymRec) : Except StoreError Node :=
  match syms[i]? with
  | some r => symRecNode text file i r
  | none => .error (.panic "symbol index out of bounds")

def tokNode (i : Nat) (r : TokRec) : Except StoreError Node := do
  let name ← text r.term
  return { blank (subId tagTok file i) (some (parentId file r.parent)) .token name with
    tokenClass := some r.cls, span := some r.span }

abbrev Item := (SymRec × Nat) ⊕ (TokRec × Nat)

def itemParent : Item → Option U32
  | .inl p => p.1.parent
  | .inr p => p.1.parent

def symFirst (s : SymRec × Nat) (t : TokRec × Nat) : Bool := s.1.span.start ≤ t.1.span.start

def itemNode : Item → Except StoreError Node
  | .inl p => symRecNode text file p.2 p.1
  | .inr p => tokNode text file p.2 p.1

structure Tree where
  top : List Item
  kids : List (List Item)

def Tree.push (t : Tree) (it : Item) : Tree :=
  match itemParent it with
  | some p => { t with kids := t.kids.modify p.val (fun ks => ks ++ [it]) }
  | none => { t with top := t.top ++ [it] }

def streamItems (s : Stream) : List Item := interleave symFirst s.symbols.zipIdx s.tokens.zipIdx

def streamTree (s : Stream) : Tree :=
  (streamItems s).foldl Tree.push ⟨[], List.replicate s.symbols.length []⟩

/-- The ordinals of `cur..=last` outside the given disjoint, ascending ranges. -/
def rangeGapsGo (last : Nat) : Nat → List (U32 × U32) → List Nat
  | cur, [] => if cur ≤ last then List.range' cur (last + 1 - cur) else []
  | cur, (cf, cl) :: rest =>
    -- `cl + 1` is in `u32` with fewer than `2 ^ 32` tokens: `cl` is the ordinal of one
    (if cur < cf.val then List.range' cur (cf.val - cur) else []) ++ rangeGapsGo last
      (cl.val + 1) rest

def rangeGaps (first last : Nat) (childRanges : List (U32 × U32)) : List Nat :=
  rangeGapsGo last first childRanges

def pushKid (kids : List (List (SymRec × Nat))) (p : SymRec × Nat) : List (List (SymRec × Nat)) :=
  match p.1.parent with
  | some q => kids.modify q.val (fun ks => ks ++ [p])
  | none => kids

def symKidsMap (syms : List SymRec) : List (List (SymRec × Nat)) :=
  syms.zipIdx.foldl pushKid (List.replicate syms.length [])

def directTokenOrdinals (sym : SymRec) (kids : List (SymRec × Nat)) : List Nat :=
  match sym.toks with
  | none => []
  | some (first, last) => rangeGaps first.val last.val (kids.filterMap (fun p => p.1.toks))

def topLevelOrdinals (tops : List (SymRec × Nat)) (ntok : Nat) : List Nat :=
  if ntok = 0 then [] else rangeGaps 0 (u32 (ntok - 1)).val (tops.filterMap (fun p => p.1.toks))

def topLevelIdxs (syms : List SymRec) : List (SymRec × Nat) :=
  syms.zipIdx.filter (fun p => p.1.parent.isNone)

def fetch (lz : Lazy) (ords : List Nat) : Except StoreError (List (TokRec × Nat)) :=
  if ords = [] then return []
  else lz.tokensAt ords (fun ord t toks => toks ++ [(t, ord)]) []

def childrenFallback (i : Nat) (b : List UInt8) : Except StoreError (List Node) := do
  let s ← decode b
  match (streamTree s).kids[i]? with
  | none => return []
  | some kids => kids.mapM (itemNode text file)

def childrenRanged (i : Nat) (b : List UInt8) : Except StoreError (Option (List Node)) := do
  let lz ← decodeLazy b
  if ¬ lz.rangesDense then
    return none
  let syms ← lz.symbols
  match syms[i]? with
  | none => return none
  | some sym =>
    let kids := syms.zipIdx.filter (fun p => p.1.parent = some (u32 i))
    let toks ← fetch lz (directTokenOrdinals sym kids)
    let nodes ← (interleave symFirst kids toks).mapM (itemNode text file)
    return some nodes

def childrenFile (b : List UInt8) : Except StoreError (List Node) := do
  let s ← decode b
  (streamTree s).top.mapM (itemNode text file)

def childrenRangedFile (b : List UInt8) : Except StoreError (Option (List Node)) := do
  let lz ← decodeLazy b
  if ¬ lz.rangesDense then
    return none
  let syms ← lz.symbols
  let tops := topLevelIdxs syms
  let toks ← fetch lz (topLevelOrdinals tops lz.ntok)
  let nodes ← (interleave symFirst tops toks).mapM (itemNode text file)
  return some nodes

/-- The stack loop of the walks, parents before their children; `fuel` bounds the items. -/
def walkStack (children : Nat → Except StoreError (List Item)) : Nat → List Item →
    Except StoreError (List Node)
  | _, [] => return []
  | 0, _ :: _ => .error (.panic "walk out of fuel")
  | fuel + 1, it :: stack => do
    let n ← itemNode text file it
    let more ← match it with
      | .inl p => children p.2
      | .inr _ => pure []
    let rest ← walkStack children fuel (more ++ stack)
    return n :: rest

def treeKids (t : Tree) (i : Nat) : Except StoreError (List Item) :=
  match t.kids[i]? with
  | some kids => .ok kids
  | none => .error (.panic "symbol index out of bounds")

def fileWalk (start : Option Nat) (b : List UInt8) : Except StoreError (List Node) := do
  let s ← decode b
  let t := streamTree s
  let fuel := s.symbols.length + s.tokens.length
  match start with
  | none => walkStack text file (treeKids t) fuel t.top
  | some i =>
    if s.symbols.length ≤ i then return []
    else do
      let kids ← treeKids t i
      walkStack text file (treeKids t) fuel kids

def pickToks (tokMap : Table Nat TokRec) (ords : List Nat) :
    Except StoreError (List (TokRec × Nat)) :=
  ords.mapM (fun ord => match tokMap.get ord with
    | some t => .ok (t, ord)
    | none => .error (.panic "token not fetched"))

/-- Merged children of symbol `j` in the ranged walk. -/
def itemChildren (symKids : List (List (SymRec × Nat))) (syms : List SymRec)
    (tokMap : Table Nat TokRec) (j : Nat) : Except StoreError (List Item) :=
  match symKids[j]?, syms[j]? with
  | some kids, some sym => do
    let toks ← pickToks tokMap (directTokenOrdinals sym kids)
    return interleave symFirst kids toks
  | _, _ => .error (.panic "symbol index out of bounds")

def fetchRange (lz : Lazy) : Option (U32 × U32) → Except StoreError (Table Nat TokRec)
  | none => return Table.empty
  | some (first, last) =>
    lz.tokensAt (List.range' first.val (last.val + 1 - first.val))
      (fun ord t m => m.insert ord t) Table.empty

def descendantsRangedOne (lz : Lazy) (syms : List SymRec) (symKids : List (List (SymRec × Nat)))
    (i : Nat) : Except StoreError (List Node) :=
  match syms[i]? with
  | none => .error (.panic "symbol index out of bounds")
  | some sym => do
    let tokMap ← fetchRange lz sym.toks
    let start ← itemChildren symKids syms tokMap i
    walkStack text file (itemChildren symKids syms tokMap) (syms.length + lz.ntok) start

def descendantsRanged (i : Nat) (b : List UInt8) : Except StoreError (Option (List Node)) := do
  let lz ← decodeLazy b
  if ¬ lz.rangesDense then
    return none
  let syms ← lz.symbols
  if syms.length ≤ i then
    return none
  let nodes ← descendantsRangedOne text file lz syms (symKidsMap syms) i
  return some nodes

def extendTops (lz : Lazy) (syms : List SymRec) (symKids : List (List (SymRec × Nat))) :
    List Node → Except StoreError (Option (List Node))
  | [] => return some []
  | n :: ns =>
    if n.kind = .symbol then
      let i := (splitId n.id).2.2
      if syms.length ≤ i then return none
      else do
        let sub ← descendantsRangedOne text file lz syms symKids i
        let rest ← extendTops lz syms symKids ns
        return rest.map (fun rest => n :: (sub ++ rest))
    else do
      let rest ← extendTops lz syms symKids ns
      return rest.map (fun rest => n :: rest)

def descendantsRangedFile (b : List UInt8) : Except StoreError (Option (List Node)) := do
  let top ← childrenRangedFile text file b
  match top with
  | none => return none
  | some top =>
    let lz ← decodeLazy b
    if ¬ lz.rangesDense then
      return none
    let syms ← lz.symbols
    extendTops text file lz syms (symKidsMap syms) top

end MemoryGraph
