import MemoryGraph.Codec.Lazy
import MemoryGraph.Codec.DictBlock
import MemoryGraph.Lib.Failure

/-! How decoding fails: only on bytes that are not what the store writes. -/

namespace MemoryGraph

def StoreError.isFault : StoreError → Bool
  | .panic _ | .corrupt _ | .storage _ => true
  | _ => false

abbrev Faults {α : Type} (x : Except StoreError α) : Prop :=
  Lib.FailsAs (fun e => e.isFault = true) x

namespace Codec
open Lib

abbrev ReadFaults {α : Type} (p : Reader α) : Prop := ReadFailsAs (fun e => e.isFault = true) p

theorem faults_byte : ReadFaults byte := by
  intro c
  unfold byte StateT.run
  dsimp only
  split
  · exact .ok _
  · exact .error rfl

theorem faults_varintGo (fuel v shift : Nat) : ReadFaults (varintGo fuel v shift) := by
  induction fuel generalizing v shift with
  | zero => exact .throw rfl
  | succ fuel ih =>
    exact .bind faults_byte fun b => .ite (.throw_bind rfl) (.ite (.pure _) (ih _ _))

theorem faults_varint : ReadFaults varint := by
  intro c
  unfold varint StateT.run
  dsimp only
  split
  · exact .ite (.ok _) (faults_varintGo 11 0 0 c)
  · exact faults_varintGo 11 0 0 c

theorem faults_rel (base : U32) : ReadFaults (rel base) := by
  refine .bind faults_varint fun n => .ite (.throw_bind rfl) (.ite (.throw_bind rfl) ?_)
  split
  · exact .pure _
  · exact .throw rfl

theorem faults_readSpan (prev : Span) : ReadFaults (readSpan prev) := by
  refine .bind (faults_rel _) fun _ => .bind (faults_rel _) fun _ => .bind (faults_rel _) fun _ =>
    .bind (faults_rel _) fun _ => .bind (faults_rel _) fun _ => .bind faults_varint fun _ => ?_
  split
  · exact .pure _
  · exact .throw rfl

theorem faults_parent : ReadFaults parent := by
  refine .bind faults_varint fun p => .ite (.pure _) ?_
  split
  · exact .pure _
  · exact .throw rfl

theorem faults_readCks (n : Nat) (last : Ck) : ReadFaults (readCks n last) := by
  induction n generalizing last with
  | zero => exact .pure _
  | succ n ih =>
    exact .bind faults_varint fun d => .ite (.throw_bind rfl) <| .bind (faults_rel _) fun _ =>
      .bind (faults_rel _) fun _ => .bind (faults_rel _) fun _ => .bind (ih _) fun _ => .pure _

theorem faults_readHeader : ReadFaults readHeader :=
  .bind faults_byte fun _ => .ite (.throw_bind rfl) <| .bind faults_varint fun _ =>
    .bind faults_varint fun _ =>
    .bind faults_varint fun _ => .bind faults_byte fun _ => .ite (.throw_bind rfl) (.pure _)

theorem faults_decodeLazy (b : List UInt8) : Faults (decodeLazy b) :=
  .bind (faults_readHeader _) fun _ => .bind (.failIf rfl) fun _ => .bind (.failIf rfl) fun _ =>
    .bind (.failIf rfl) fun _ => .bind (faults_readCks _ _ _) fun _ =>
      .bind (.failIf rfl) fun _ => .ok _

theorem faults_readKind : ReadFaults readKind := by
  refine .bind faults_byte fun b => ?_
  split
  · exact .pure _
  · exact .throw rfl

theorem faults_readId : ReadFaults readId := .bind faults_varint fun _ => .pure _

theorem faults_readOwner (hasOwners : Bool) : ReadFaults (readOwner hasOwners) :=
  .ite faults_readId (.pure _)

theorem faults_readRange (prevFirst : U32) : ReadFaults (readRange prevFirst) := by
  refine .bind faults_varint fun n => .ite (.pure _) <| .bind (faults_rel _) fun first => ?_
  split
  · exact .throw rfl
  · split
    · exact .throw rfl
    · exact .pure _

theorem faults_readSym (hasOwners : Bool) (i : Nat) (prev : Span) (prevFirst : U32) :
    ReadFaults (readSym hasOwners i prev prevFirst) :=
  .bind faults_varint fun _ => .bind faults_readKind fun _ => .bind faults_readId fun _ =>
    .bind (faults_readOwner _) fun _ => .bind faults_parent fun _ => .ite (.throw_bind rfl) <|
      .bind (faults_readSpan _) fun _ => .bind (faults_readRange _) fun _ => .pure _

theorem faults_readSyms (hasOwners : Bool) (n i : Nat) (prev : Span) (prevFirst : U32) :
    ReadFaults (readSyms hasOwners n i prev prevFirst) := by
  induction n generalizing i prev prevFirst with
  | zero => exact .pure _
  | succ n ih => exact .bind (faults_readSym _ _ _ _) fun _ => .bind (ih _ _ _) fun _ => .pure _

theorem faults_symbols (lz : Lazy) : Faults lz.symbols :=
  .bind (faults_readSyms _ _ _ _ _ _) fun _ => .bind (.failIf rfl) fun _ => .ok _

theorem faults_readClass : ReadFaults readClass := by
  refine .bind faults_byte fun b => ?_
  split
  · exact .pure _
  · exact .throw rfl

theorem faults_record (lz : Lazy) (prev : Span) : ReadFaults (lz.record prev) :=
  .bind faults_varint fun _ => .bind faults_readClass fun _ => .bind faults_parent fun _ =>
    .ite (.throw_bind rfl) <| .bind (faults_readSpan _) fun _ => .pure _

theorem faults_checkCk (lz : Lazy) (ord : Nat) (prev : Span) :
    ReadFaults (lz.checkCk ord prev) := by
  refine .ite ?_ (.pure _)
  split
  · exact .throw rfl
  · exact .bind .get fun _ => .ite (.throw rfl) (.pure _)

section
variable {σ : Type}

theorem faults_tokensGo (lz : Lazy) (f : Visitor σ) (n ord : Nat) (prev : Span) (st : σ) :
    ReadFaults (lz.tokensGo f n ord prev st) := by
  induction n generalizing ord prev st with
  | zero => exact .pure _
  | succ n ih =>
    exact .bind (faults_checkCk _ _ _) fun _ => .bind (faults_record _ _) fun _ =>
      .ite (ih _ _ _) (.pure _)

theorem faults_tokens (lz : Lazy) (f : Visitor σ) (init : σ) : Faults (lz.tokens f init) :=
  .bind (faults_tokensGo _ _ _ _ _ _ _) fun _ => .bind (.failIf rfl) fun _ => .ok _

end

theorem faults_decode (b : List UInt8) : Faults (decode b) :=
  .bind (faults_decodeLazy b) fun _ => .bind (faults_symbols _) fun _ =>
    .bind (faults_tokens _ _ _) fun _ => .ok _

theorem faults_dictBlockEntryCount (b : List UInt8) : Faults (dictBlockEntryCount b) :=
  .bind (faults_varint _) fun _ => .ok _

theorem faults_readEntry : ReadFaults readEntry := by
  refine .bind faults_varint fun _ => .bind faults_varint fun _ =>
    .bind (.takeBytes _ rfl) fun _ => ?_
  split
  · exact .pure _
  · exact .throw rfl

section
variable {σ : Type} (f : σ → Nat × String → σ)

theorem faults_foldEntries (n : Nat) (s : σ) : ReadFaults (foldEntries f n s) := by
  induction n generalizing s with
  | zero => exact .pure _
  | succ n ih => exact .bind faults_readEntry fun _ => ih _

theorem faults_walkDictBlock (init : σ) (b : List UInt8) : Faults (walkDictBlock f init b) :=
  .bind (faults_varint _) fun _ => .bind (.failIf rfl) fun _ =>
    .bind (faults_foldEntries _ _ _ _) fun _ =>
    .bind (.failIf rfl) fun _ => .ok _

end

theorem faults_dictBlockFirstId (b : List UInt8) : Faults (dictBlockFirstId b) :=
  .bind (faults_varint _) fun _ => .ite (.ok _) (.bind (faults_varint _) fun _ => .ok _)

end Codec
end MemoryGraph
