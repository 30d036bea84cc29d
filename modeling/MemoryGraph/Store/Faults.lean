import MemoryGraph.Codec.Faults
import MemoryGraph.Store.Ingest

/-! How the writes fail. Prune and vacuum only have faults; an ingest has them or refuses its
arguments. -/

namespace MemoryGraph
open Lib Codec

theorem faults_probeBlock (rev : Table Nat (List UInt8)) (id mid : Nat) :
    Faults (probeBlock rev id mid) := by
  unfold probeBlock
  split
  · exact .error rfl
  · refine .bind (faults_dictBlockFirstId _) fun first => ?_
    split
    · exact .error rfl
    · exact .ok _

theorem faults_dictRevLookup (rev : Table Nat (List UInt8)) (id : Nat) :
    Faults (dictRevLookup rev id) := by
  have hblock : Faults (dictRevBlock rev id) :=
    .bind (.partitionPoint (faults_probeBlock rev id) _ _ _) fun _ => .ok _
  refine .bind hblock fun block => ?_
  split
  · exact .ok _
  · exact faults_walkDictBlock _ _ _

theorem faults_dictRevAppend (rev : Table Nat (List UInt8)) (id : Nat) (text : String) :
    Faults (dictRevAppend rev id text) := by
  refine .ite (.ok _) ?_
  split
  · exact .error rfl
  · exact .bind (faults_dictBlockEntryCount _) fun _ =>
      .ite (.ok _) (.bind (faults_walkDictBlock _ _ _) fun _ => .ok _)

section
variable (sha256 : List UInt8 → List UInt8)

theorem faults_dictKeyGo (d : Dict) (text : String) (id : Option Nat) (fuel n : Nat) :
    Faults (dictKeyGo sha256 d text id fuel n) := by
  induction fuel generalizing n with
  | zero => exact .error rfl
  | succ fuel ih =>
    unfold dictKeyGo
    refine .ite (.error rfl) ?_
    split
    · exact .ok _
    · cases id with
      | some i => exact .bind (.ok _) fun same => .ite (.ok _) (ih _)
      | none =>
        exact .bind (faults_dictRevLookup _ _) fun _ => .bind (.ok _) fun same =>
          .ite (.ok _) (ih _)

theorem faults_dictKey (d : Dict) (text : String) (id : Option Nat) :
    Faults (dictKey sha256 d text id) :=
  .ite (faults_dictKeyGo _ _ _ _ _ _) (.ok _)

theorem faults_intern (d : Dict) (text : String) : Faults (intern sha256 d text) := by
  refine .bind (faults_dictKey _ _ _ _) fun ⟨key, found⟩ => ?_
  cases found with
  | some v => exact .ok _
  | none => exact .bind (.failIf rfl) fun _ => .bind (faults_dictRevAppend _ _ _) fun _ => .ok _

theorem faults_internAll (d : Dict) (ts : List String) : Faults (internAll sha256 d ts) := by
  induction ts generalizing d with
  | nil => exact .ok _
  | cons t ts ih => exact .bind (faults_intern _ _ _) fun _ => .bind (ih _) fun _ => .ok _

end

theorem faults_text (d : Dict) (term : Nat) : Faults (d.text term) := by
  refine .bind (faults_dictRevLookup _ _) fun t => ?_
  split
  · exact .ok _
  · exact .error rfl

theorem faults_symSample (dict : Dict) (file : Nat) (r : SymRec) :
    Faults (symSample dict file r) := by
  refine .bind ?_ fun _ => .ok _
  cases r.langKind with
  | none => exact .ok _
  | some k => exact .bind (faults_text _ _) fun _ => .ok _

theorem faults_removeStream (d : Data) (file : Nat) (scope : Scope) (tally : Tally) (s : Stream) :
    Faults (d.removeStream file scope tally s) :=
  .bind (.bind (.mapM (faults_symSample _ _)) fun _ => .ok _) fun _ =>
    .bind (.mapM fun _ => faults_text _ _) fun _ => .ok _

theorem faults_removeContent (d : Data) (file : Nat) (scope : Scope) (tally : Tally) :
    Faults (d.removeContent file scope tally) := by
  unfold Data.removeContent
  split
  · exact .ok _
  · exact .bind (faults_decode _) fun _ => .ite (.ok _) (faults_removeStream _ _ _ _ _)

theorem faults_ensure (d : Data) (parent : Option Nat) (kind : NodeKind) (name : String)
    (language : Option String) : Faults (d.ensure parent kind name language) := by
  unfold Data.ensure
  split
  · exact .ok _
  · exact .bind (.failIf rfl) fun _ => .ok _

theorem faults_replaceOld (d : Data) (existed : Bool) (org repo : String) (fileId : Nat)
    (tally : Tally) : Faults (d.replaceOld existed org repo fileId tally) := by
  refine .ite ?_ (.ok _)
  split
  · exact .error rfl
  · exact faults_removeContent _ _ _ _

theorem faults_fileKeyRow (n : Node) : Faults (fileKeyRow n) := by
  unfold fileKeyRow
  split
  · exact .error rfl
  · exact .ok _

def StoreError.isRejected : StoreError → Bool
  | .rejected _ => true
  | e => e.isFault

theorem rejects_nul (what v : String) : FailsAs (fun e => e.isRejected = true)
    (rejectNul what v) := .failIf rfl

theorem rejects_nulIn (what : String) (v : Option String) :
    FailsAs (fun e => e.isRejected = true) (rejectNulIn what v) := by
  cases v with
  | none => exact .ok _
  | some v => exact rejects_nul what v

theorem rejects_checkIngest (org repo language : String) (ex : Extraction) :
    FailsAs (fun e => e.isRejected = true) (checkIngest org repo language ex) :=
  .bind (.failIf rfl) fun _ => .bind (rejects_nul _ _) fun _ => .bind (rejects_nul _ _) fun _ =>
    .bind (rejects_nul _ _) fun _ => .bind (.mapM fun _ => .bind (rejects_nulIn _ _) fun _ =>
      rejects_nulIn _ _) fun _ =>
      .ok _

theorem StoreError.isRejected_of_isFault (e : StoreError) (h : e.isFault = true) :
    e.isRejected = true := by
  cases e <;> first | rfl | exact h

theorem rejects_ingestPrepped (sha256 : List UInt8 → List UInt8) (d : Data)
    (org repo path language : String) (ex : Extraction) (fm : FileMeta) :
    FailsAs (fun e => e.isRejected = true)
      (d.ingestPrepped sha256 org repo path language ex fm) := by
  refine .bind (rejects_checkIngest _ _ _ _) fun _ =>
    FailsAs.mono (P := fun e => e.isFault = true) ?_ StoreError.isRejected_of_isFault
  exact .bind (faults_ensure _ _ _ _ _) fun _ => .bind (faults_ensure _ _ _ _ _) fun _ =>
    .bind (faults_ensure _ _ _ _ _) fun _ => .bind (faults_replaceOld _ _ _ _ _ _) fun _ =>
      .bind (faults_fileKeyRow _) fun _ =>
        .bind (.bind (faults_internAll _ _ _) fun _ => .ok _) fun _ => .ok _

theorem faults_pruneIn (d : Data) (org repo : String) (keep : List String) (dryRun : Bool) :
    Faults (d.pruneIn org repo keep dryRun) := by
  refine .bind ?_ fun _ => .ok _
  unfold Data.pruneFiles
  split
  · exact .ok _
  · refine .foldlM fun st fid => ?_
    unfold pruneFile
    split
    · exact .error rfl
    · exact .ite (.ok _) (.ite (.ok _) (.bind (faults_removeContent _ _ _ _) fun _ => .ok _))

theorem faults_vacuumIn (sha256 : List UInt8 → List UInt8) (d : Data) :
    Faults (d.vacuumIn sha256) := by
  have hrow : ∀ raw, Faults (rowSymbolTerms raw) := fun raw =>
    .bind (faults_decodeLazy _) fun _ => .bind (faults_symbols _) fun _ => .ok _
  have hlive : Faults d.liveTerms := .bind (.mapM fun r => hrow r.2) fun _ => .ok _
  exact .bind hlive fun _ => .bind (.mapM fun _ => faults_walkDictBlock _ _ _) fun _ =>
    .bind (.foldlM fun _ _ => .bind (faults_dictKey _ _ _ _) fun _ => .ok _) fun _ => .ok _

end MemoryGraph
