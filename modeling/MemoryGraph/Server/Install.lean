import MemoryGraph.Schema
import MemoryGraph.Lib.Faulty
import MemoryGraph.Lib.Fallible

/-! Installing a received snapshot over the store file. Each file operation may fail or be the
point of a crash. -/

namespace MemoryGraph.Server
open Lib Lib.Prog

/-- The files an install touches: the store, `<store>.old`, `<store>.install.tmp`, and the
received snapshot. -/
inductive FileName
  | path
  | old
  | staged
  | received
deriving DecidableEq, Repr

abbrev Files (β : Type) := FileName → Option β

inductive FileOp
  | validate
  | removeStaged
  | copy
  | drain
  | format
  | removeOld
  | moveAside
  | moveIn
  | moveBack
  | removeAside
  | reopen
  | reopenAfterError
  | dropStaged
  | cleanup
  | promote
deriving DecidableEq, Repr

inductive Outcome (β : Type)
  | ok
  | fail (msg : String) (torn : Option β)
  | crash (torn : Option β)

/-- The code outside: `check` is `detect_format` and `check_marker` on a received file (opening
it may upgrade it), `format` is `detect_format`, `fresh` a store file made by opening a
path that does not exist. -/
structure StoreFiles (β : Type) where
  check : β → Except StoreError β
  format : β → Except StoreError (Option Nat)
  fresh : β

section
variable {β : Type}

abbrev FileM (β α : Type) := Prog (Files β) StoreError α

def perform (f : FileOp → Outcome β) (o : FileOp) (act : Files β → Except StoreError (Files β))
    (torn : Option β → Files β → Files β) : FileM β Unit := fun fs =>
  match f o with
  | .ok =>
    match act fs with
    | .ok fs' => .ok () fs'
    | .error e => .error (.fail e) fs
  | .fail msg t => .error (.fail (.storage msg)) (torn t fs)
  | .crash t => .error .crash (torn t fs)

def atomic (f : FileOp → Outcome β) (o : FileOp) (act : Files β → Except StoreError (Files β)) :
    FileM β Unit :=
  perform f o act (fun _ fs => fs)

def missing : StoreError := .storage "No such file or directory"

def rename (a b : FileName) (fs : Files β) : Except StoreError (Files β) :=
  match fs a with
  | none => .error missing
  | some x => .ok (Function.update (Function.update fs b (some x)) a none)

def removeFile (a : FileName) (fs : Files β) : Except StoreError (Files β) :=
  match fs a with
  | none => .error missing
  | some _ => .ok (Function.update fs a none)

def copyFile (a b : FileName) (fs : Files β) : Except StoreError (Files β) :=
  match fs a with
  | none => .error (.storage "staging the snapshot: No such file or directory")
  | some x => .ok (Function.update fs b (some x))

variable (env : StoreFiles β) (f : FileOp → Outcome β)

def validate (fs : Files β) : Except StoreError (Files β) :=
  match fs .received with
  | none => .error missing
  | some x => do
    let y ← env.check x
    return Function.update fs .received (some y)

def checkFormat (fs : Files β) : Except StoreError (Files β) :=
  match fs .staged with
  | none => .error missing
  | some x => do
    let v ← env.format x
    if v = none then .error (.rejected "not a store file (no schema version)") else .ok fs

def openStore (fs : Files β) : Except StoreError (Files β) :=
  .ok (if fs .path = none then Function.update fs .path (some env.fresh) else fs)

def fileExists (a : FileName) : FileM β Bool := fun fs => .ok (fs a).isSome fs

def installSnapshot : FileM β Unit := do
  atomic f .format (checkFormat env)
  let _ ← attempt (atomic f .removeOld (removeFile .old))
  let hadOld ← fileExists .path
  if hadOld then atomic f .moveAside (rename .path .old)
  match ← attempt (atomic f .moveIn (rename .staged .path)) with
  | .error e =>
    if hadOld then
      let _ ← attempt (atomic f .moveBack (rename .old .path))
    fail e
  | .ok _ =>
    if hadOld then
      let _ ← attempt (atomic f .removeAside (removeFile .old))

/-- `StoreSlot::install_snapshot`: `drain` stands for the write lock, the wait for the
readers of snapshot handles and the store being open. -/
def slotInstall : FileM β Unit := do
  atomic f .drain .ok
  match ← attempt (do installSnapshot env f; atomic f .reopen (openStore env)) with
  | .ok _ => pure ()
  | .error e =>
    let _ ← attempt (atomic f .reopenAfterError (openStore env))
    fail e

def installWith : FileM β Unit := do
  match ← attempt (atomic f .validate (validate env)) with
  | .error e =>
    let _ ← attempt (atomic f .cleanup (removeFile .received))
    fail e
  | .ok _ =>
    let _ ← attempt (atomic f .removeStaged (removeFile .staged))
    let r ← attempt (do
      perform f .copy (copyFile .received .staged) (fun t fs => Function.update fs .staged t)
      slotInstall env f)
    let _ ← attempt (atomic f .dropStaged (removeFile .staged))
    match r with
    | .error e =>
      let _ ← attempt (atomic f .cleanup (removeFile .received))
      fail e
    | .ok _ =>
      let promoted ← attempt (atomic f .promote (removeFile .received))
      let _ ← attempt (atomic f .cleanup (removeFile .received))
      match promoted with
      | .error e => fail e
      | .ok _ => pure ()

end
end MemoryGraph.Server
