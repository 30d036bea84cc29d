import MemoryGraph.Backup.Sink
import MemoryGraph.Server.SnapshotDir

/-! The uploader: a job that arrives while one is queued replaces it, and those who wait for an
outcome move along with the jobs. -/

namespace MemoryGraph.Backup
open MemoryGraph.Server (Sidecar LogId)

inductive BackupOn
  | leader
  | all
  | none
deriving DecidableEq, Repr

structure Uploaded where
  key : String
  url : String
  side : Sidecar
deriving DecidableEq, Repr

inductive UploadError
  | replaced (msg : String)
  | noClusterId
  | stopped
  | failed (msg : String)
deriving DecidableEq, Repr

structure Waiter where
  id : Nat
  asked : Nat
deriving DecidableEq, Repr

structure Job where
  side : Sidecar
  path : String
  waiters : List Waiter
deriving DecidableEq, Repr

inductive JobEnd
  | done (u : Uploaded)
  | failed (e : UploadError)
  | superseded
deriving DecidableEq, Repr

structure BackupStats where
  lastIndex : Nat
  lastSuccessUnix : Nat
  failuresTotal : Nat
  bytesTotal : Nat
  uploadsTotal : Nat
  lastError : String
deriving DecidableEq, Repr

def uploadRetries : Nat := 3

inductive Outcome
  | failed (msg : String)
  | fatal (msg : String)
  | skipped (why : UploadError)
  | committed (u : Uploaded)
deriving DecidableEq, Repr

def failedWith (msg : String) (e : IoError) : Outcome :=
  match e.kind with
  | .permissionDenied | .invalidInput => .fatal msg
  | _ => .failed msg

structure Answers where
  clusterId : Option String
  getMeta : Except IoError Unit
  file : Except IoError Unit
  putData : Except IoError Nat
  read : Nat × String
  -- the bytes of the `.meta`, once written
  putMeta : Except IoError Nat
deriving DecidableEq, Repr

structure Sending where
  describe : String
  urlOf : String → String
  on : BackupOn

def stemText : Option LogId → String
  | some id => "snap-" ++ toString id.term ++ "-" ++ toString id.index
  | none => "snap-0-0"

def metaExists (key : String) : Except IoError Unit → Except Outcome Bool
  | .ok _ => .ok true
  | .error e =>
      if e.kind = .notFound then .ok false else .error
        (failedWith ("reading `" ++ key ++ "`: " ++ e.text) e)

def clusterDir (a : Answers) : Except Outcome String :=
  match a.clusterId with
  | some id => if id = "" then .error (.skipped .noClusterId) else .ok (id ++ "/")
  | none => .error (.skipped .noClusterId)

def sendPair (job : Job) (a : Answers) (dataKey metaKey : String) : Except Outcome Nat :=
  match a.file with
  | .error e =>
    if e.kind = .notFound then
      .error (.skipped (.replaced
        ("`" ++ job.path ++ "` was replaced by a newer snapshot before the upload began")))
    else .error (.failed ("opening the snapshot: " ++ e.text))
  | .ok _ =>
    match a.putData with
    | .error e => .error (failedWith ("writing `" ++ dataKey ++ "`: " ++ e.text) e)
    | .ok put =>
      if a.read.1 ≠ job.side.size ∨ put ≠ job.side.size ∨ a.read.2 ≠ job.side.sha256 then
        .error (.failed ("the snapshot read back as " ++ toString a.read.1 ++ " bytes (sha256 " ++
          a.read.2 ++ "), but its meta records " ++ toString job.side.size ++ " bytes (sha256 " ++
          job.side.sha256 ++ ")"))
      else
        match a.putMeta with
        | .error e => .error (failedWith ("writing `" ++ metaKey ++ "`: " ++ e.text) e)
        | .ok n => .ok (put + n)

def uploadOnce (cfg : Sending) (job : Job) (a : Answers) : Except Outcome (Nat × Uploaded) := do
  let dir ← clusterDir a
  let dataKey := dir ++ stemText job.side.lastLogId ++ ".redb"
  let metaKey := dir ++ stemText job.side.lastLogId ++ ".meta"
  let done : Uploaded := ⟨dataKey, cfg.urlOf dataKey, job.side⟩
  if ← metaExists metaKey a.getMeta then .error (.committed done)
  else return (← sendPair job a dataKey metaKey, done)

/-- Where the worker is with its job: it locks the queue to look whether the job is superseded, to
wait before the next attempt, and at the end. -/
inductive Stage
  | uploading
  | failing (fatal : Bool) (msg : String)
  | backoff
  | ended (e : JobEnd)
deriving DecidableEq, Repr

structure Work where
  job : Job
  attempt : Nat
  stage : Stage
deriving DecidableEq, Repr

/-- The state of an uploader, with what was asked and what was answered. -/
structure Uploader where
  pending : Option Job
  work : Option Work
  stop : Bool
  exited : Bool
  stats : BackupStats
  issued : List Waiter
  answered : List (Waiter × Except UploadError Uploaded)
  dropped : List Waiter

inductive Op
  | built (leads : Bool) (side : Sidecar) (path : String)
  | uploadNow (side : Sidecar) (path : String)
  | stop
  | take
  | attempt (a : Answers) (now : Nat)
  | check
  | resume
  | finish

namespace Uploader

def start : Uploader := ⟨none, none, false, false, ⟨0, 0, 0, 0, 0, ""⟩, [], [], []⟩

def enqueue (q : Uploader) (side : Sidecar) (path : String) (waiter : Option Waiter) :
    Uploader × Option Waiter :=
  if q.stop then (q, waiter)
  else match q.pending with
    | some old =>
      if side.index < old.side.index then
        ({ q with pending := some { old with waiters := old.waiters ++ waiter.toList } }, none)
      else ({ q with pending := some ⟨side, path, waiter.toList ++ old.waiters⟩ }, none)
    | none => ({ q with pending := some ⟨side, path, waiter.toList⟩ }, none)

def uploads (cfg : Sending) (leads : Bool) : Bool :=
  match cfg.on with
  | .none => false
  | .all => true
  | .leader => leads

def snapshotBuilt (cfg : Sending) (q : Uploader) (leads : Bool) (side : Sidecar) (path : String) :
    Uploader :=
  if uploads cfg leads then (q.enqueue side path none).1 else q

def uploadNow (q : Uploader) (side : Sidecar) (path : String) : Uploader :=
  let w : Waiter := ⟨q.issued.length, side.index⟩
  let (q', back) := q.enqueue side path (some w)
  { q' with
    issued := q.issued ++ [w]
    answered := q.answered ++ back.toList.map fun w => (w, .error .stopped) }

def supersededOrStopped (q : Uploader) : Bool := q.stop || q.pending.isSome

def attempted (cfg : Sending) (q : Uploader) (w : Work) (a : Answers) (now : Nat) : Uploader :=
  match uploadOnce cfg w.job a with
  | .ok (bytes, done) => { q with
      work := some { w with stage := .ended (.done done) }
      stats := { q.stats with
        lastIndex := w.job.side.index
        lastSuccessUnix := now
        bytesTotal := q.stats.bytesTotal + bytes
        uploadsTotal := q.stats.uploadsTotal + 1
        lastError := "" } }
  | .error (.committed done) => { q with work := some { w with stage := .ended (.done done) } }
  | .error (.skipped why) => { q with work := some { w with stage := .ended (.failed why) } }
  | .error (.fatal e) => { q with work := some { w with stage := .failing true e } }
  | .error (.failed e) => { q with work := some { w with stage := .failing false e } }

def checked (cfg : Sending) (q : Uploader) (w : Work) (fatal : Bool) (e : String) : Uploader :=
  if q.supersededOrStopped then { q with work := some { w with stage := .ended .superseded } }
  else if fatal ∨ uploadRetries ≤ w.attempt then
    let msg := "backing up snapshot " ++ toString w.job.side.index ++ " (term " ++
      toString w.job.side.term ++ ") to " ++ cfg.describe ++ ": " ++ e
    { q with
      work := some { w with stage := .ended (.failed (.failed msg)) }
      stats := { q.stats with failuresTotal := q.stats.failuresTotal + 1, lastError := msg } }
  else { q with work := some { w with attempt := w.attempt + 1, stage := .backoff } }

def finished (q : Uploader) (job : Job) : JobEnd → Uploader
  | .done u =>
    { q with work := none, answered := q.answered ++ job.waiters.map fun w => (w, .ok u) }
  | .failed e =>
    { q with work := none, answered := q.answered ++ job.waiters.map fun w => (w, .error e) }
  | .superseded =>
    match q.pending with
    | some next =>
      { q with
        work := none
        pending := some { next with waiters := next.waiters ++ job.waiters } }
    | none => { q with work := none, dropped := q.dropped ++ job.waiters }

def stopped (q : Uploader) : Uploader :=
  { q with
    stop := true
    pending := none
    dropped := q.dropped ++ (q.pending.map (·.waiters)).getD [] }

def step (cfg : Sending) (q : Uploader) : Op → Option Uploader
  | .built leads side path => some (q.snapshotBuilt cfg leads side path)
  | .uploadNow side path => some (q.uploadNow side path)
  | .stop => some q.stopped
  | .take =>
    if q.exited ∨ q.work.isSome then none
    else if q.stop then some { q with exited := true }
    else q.pending.map fun job => { q with pending := none, work := some ⟨job, 0, .uploading⟩ }
  | .attempt a now =>
    match q.work with
    | some w => if w.stage = .uploading then some (q.attempted cfg w a now) else none
    | none => none
  | .check =>
    match q.work with
    | some ⟨job, n, .failing fatal e⟩ => some (q.checked cfg ⟨job, n, .failing fatal e⟩ fatal e)
    | _ => none
  | .resume =>
    match q.work with
    | some w =>
      if w.stage = .backoff then some { q with work := some { w with stage := .uploading } }
        else none
    | none => none
  | .finish =>
    match q.work with
    | some ⟨job, _, .ended e⟩ => some (q.finished job e)
    | _ => none

end Uploader
end MemoryGraph.Backup
