import MemoryGraph.Raft.LogEntry
import MemoryGraph.Lib.Contiguous

/-! The log store, whose transactions are retried until they are on disk, refines a log given by
its purge point and the entries above it. -/

namespace MemoryGraph.Raft
open Lib Table List

inductive Cause
  | store (e : StoreError)
  | json (why : String)
deriving DecidableEq, Repr

inductive StorageError
  | readLogs (cause : Cause)
deriving DecidableEq, Repr

structure RedbLogStore where
  logTable : Table U64 (List UInt8)
  metaTable : Table String (List UInt8)

structure LogState where
  lastPurgedLogId : Option LogId
  lastLogId : Option LogId
deriving DecidableEq, Repr

def kPurged : String := "last_purged"

section
variable {M : Type} (j : Serde M) (id : Serde LogId)

namespace RedbLogStore

def created : RedbLogStore := ⟨Table.empty, Table.empty⟩

def readMeta {α : Type} (db : RedbLogStore) (serde : Serde α) (key : String) :
    Except StorageError (Option α) :=
  match db.metaTable.get key with
  | none => .ok none
  | some v =>
    match serde.fromSlice v with
    | .ok a => .ok (some a)
    | .error e => .error (.readLogs (.json e))

def readEntry (v : List UInt8) : Except StorageError (Entry M) :=
  (decodeEntry j v).mapError fun e => .readLogs (.store e)

def lastLogId (db : RedbLogStore) : Except StorageError (Option LogId) :=
  match db.logTable.last with
  | none => .ok none
  | some (_, v) => (readEntry j v).map fun e => some e.logId

def lastIndex (display : StorageError → String) (db : RedbLogStore) :
    Except StoreError (Option U64) :=
  Except.mapError (fun e => .storage ("raft log: " ++ display e)) (do
    let last ← db.lastLogId j
    let purged ← db.readMeta id kPurged
    return (last.or purged).map LogId.index)

def tryGetLogEntries (db : RedbLogStore) (lo hi : Bound U64) :
    Except StorageError (List (Entry M)) :=
  (db.logTable.between lo hi).mapM fun r => readEntry j r.2

def getLogState (db : RedbLogStore) : Except StorageError LogState := do
  let lastPurgedLogId ← db.readMeta id kPurged
  let last ← db.lastLogId j
  match last with
  | some l => return ⟨lastPurgedLogId, some l⟩
  | none => return ⟨lastPurgedLogId, lastPurgedLogId⟩

end RedbLogStore

inductive Call (M : Type)
  | append (entries : List (Entry M))
  | truncate (logId : LogId)
  | purge (logId : LogId)

def Call.write : Call M → RedbLogStore → RedbLogStore
  | .append entries, db =>
    { db with logTable := db.logTable.insertAll (entries.map fun e =>
      (e.logId.index, encodeEntry j e)) }
  | .truncate logId, db =>
      { db with logTable := db.logTable.removeBetween (.included logId.index) .unbounded }
  | .purge logId, db =>
    { logTable := db.logTable.removeBetween .unbounded (.included logId.index)
      metaTable := db.metaTable.insert kPurged (id.toVec logId) }

end

inductive FaultCause
  | diskFull
  | previousIo
  | final
deriving DecidableEq, Repr

/-- A failed attempt. The transaction is atomic; whether a commit that answered an error is
found on disk afterwards is not known. -/
structure Fault where
  cause : FaultCause
  kept : Bool
deriving DecidableEq, Repr

def maxPreviousIo : Nat := 5

/-- `DiskStall::retry` over the faults met: whether the write is answered `Ok`, and how many
of its transactions are on disk. -/
def retry (previousIo : Nat) : List Fault → Bool × Nat
  | [] => (true, 1)
  | f :: rest =>
    let onDisk := if f.kept then 1 else 0
    match f.cause with
    | .diskFull => ((retry 0 rest).1, onDisk + (retry 0 rest).2)
    | .previousIo =>
      if maxPreviousIo < previousIo + 1 then (false, onDisk)
      else ((retry (previousIo + 1) rest).1, onDisk + (retry (previousIo + 1) rest).2)
    | .final => (false, onDisk)

def nextIndex : Option LogId → Nat
  | none => 0
  | some l => l.index + 1

def Entry.index {M : Type} (e : Entry M) : Nat := e.logId.index

structure AbstractLog (M : Type) where
  purged : Option LogId
  entries : List (Entry M)
  contiguous : Contiguous Entry.index (nextIndex purged) entries

namespace AbstractLog
variable {M : Type}

def empty : AbstractLog M := ⟨none, [], trivial⟩

def last (log : AbstractLog M) : Option LogId :=
  (log.entries.getLast?.map Entry.logId).or log.purged

theorem nextIndex_last (log : AbstractLog M) :
    nextIndex log.last = nextIndex log.purged + log.entries.length := by
  cases hlast : log.entries.getLast? with
  | none =>
    rw [last, hlast, getLast?_eq_none_iff.mp hlast]
    rfl
  | some e =>
    rw [last, hlast]
    exact log.contiguous.getLast hlast

/-- The calls openraft makes: an append goes on from the last id, a truncation is above the
purge point, and purge points do not go back. -/
def Allows (log : AbstractLog M) : Call M → Prop
  | .append entries => Contiguous Entry.index (nextIndex log.last) entries
  | .truncate logId => ∀ p ∈ log.purged, p.index < logId.index
  | .purge logId => ∀ p ∈ log.purged, p.index ≤ logId.index

def apply (log : AbstractLog M) : (c : Call M) → log.Allows c → AbstractLog M
  | .append entries, h =>
  ⟨log.purged, log.entries ++ entries, log.contiguous.append (log.nextIndex_last ▸ h)⟩
  | .truncate logId, _ =>
    ⟨log.purged, log.entries.filter fun e => e.index < logId.index,
      log.contiguous.filter_lt logId.index⟩
  | .purge logId, h =>
    ⟨some logId, log.entries.filter fun e => logId.index + 1 ≤ e.index, log.contiguous.filter_ge (by
      cases hp : log.purged with
      | none => exact Nat.zero_le _
      | some p => exact Nat.succ_le_succ (h p hp))⟩

end AbstractLog

section
variable {M : Type} (j : Serde M) (id : Serde LogId)

def Entry.row (e : Entry M) : U64 × List UInt8 := (e.logId.index, encodeEntry j e)

structure Refines (db : RedbLogStore) (log : AbstractLog M) : Prop where
  rows : db.logTable.rows = log.entries.map (Entry.row j)
  purged : db.metaTable.get kPurged = log.purged.map id.toVec

theorem refines_created : Refines j id .created AbstractLog.empty := ⟨rfl, rfl⟩

variable {j id} {db : RedbLogStore} {log : AbstractLog M}

theorem pairwise_rows {s : Nat} {l : List (Entry M)} (h : Contiguous Entry.index s l) :
    (l.map (Entry.row j)).Pairwise fun a b => a.1 < b.1 := pairwise_map.mpr h.pairwise

theorem nodup_keys {s : Nat} {l : List (Entry M)} (h : Contiguous Entry.index s l) :
    ((l.map (Entry.row j)).map Prod.fst).Nodup :=
  (pairwise_map.mpr (pairwise_rows h)).imp fun h => h.ne

theorem Refines.write {c : Call M} (h : Refines j id db log) (hc : log.Allows c) :
    Refines j id (c.write j id db) (log.apply c hc) := by
  cases c with
  | append entries =>
    refine ⟨?_, h.purged⟩
    show (db.logTable.insertAll (entries.map (Entry.row j))).rows =
        (log.entries ++ entries).map (Entry.row j)
    rw [map_append, ← h.rows]
    apply rows_insertAll_of_lt
    rw [h.rows, ← map_append]
    exact pairwise_rows (log.apply (.append entries) hc).contiguous
  | truncate logId =>
    refine ⟨?_, h.purged⟩
    show (db.logTable.removeBetween (.included logId.index) .unbounded).rows = _
    rw [rows_removeBetween, h.rows, filter_map]
    refine congrArg _ (filter_congr fun e _ => ?_)
    show (!(decide (logId.index ≤ e.logId.index) && true)) = decide (e.index < logId.index)
    rw [Bool.and_true, ← decide_not]
    exact decide_eq_decide.mpr not_le
  | purge logId =>
    refine ⟨?_, get_insert_self _ _ _⟩
    show (db.logTable.removeBetween .unbounded (.included logId.index)).rows = _
    rw [rows_removeBetween, h.rows, filter_map]
    refine congrArg _ (filter_congr fun e _ => ?_)
    show (!(true && decide (e.logId.index ≤ logId.index))) = decide (logId.index + 1 ≤ e.index)
    rw [Bool.true_and, ← decide_not]
    exact decide_eq_decide.mpr not_le

theorem write_write {c : Call M} (hc : log.Allows c) (db : RedbLogStore) :
    c.write j id (c.write j id db) = c.write j id db := by
  cases c with
  | append entries =>
    exact congrArg (RedbLogStore.mk · db.metaTable) (insertAll_idem _ (nodup_keys hc))
  | truncate logId => exact congrArg (RedbLogStore.mk · db.metaTable) (removeBetween_idem _ _ _)
  | purge logId =>
    refine congrArg₂ RedbLogStore.mk (removeBetween_idem _ _ _) (ext fun k => ?_)
    show ((db.metaTable.insert kPurged (id.toVec logId)).insert kPurged (id.toVec logId)).get k = _
    rw [get_insert]
    split_ifs with hk
    · subst hk
      exact (get_insert_self _ _ _).symm
    · rfl

theorem iterate_write {c : Call M} (hc : log.Allows c) (db : RedbLogStore) {n : Nat} (hn : n ≠ 0) :
    (c.write j id)^[n] db = c.write j id db := by
  obtain ⟨n, rfl⟩ := Nat.exists_eq_succ_of_ne_zero hn
  exact Function.iterate_fixed (write_write hc db) n

theorem readEntry_row (e : Entry M) : RedbLogStore.readEntry j (e.row j).2 = .ok e := by
  rw [RedbLogStore.readEntry, Entry.row, decodeEntry_encodeEntry]
  rfl

namespace Refines

theorem lastLogId_eq (h : Refines j id db log) :
    db.lastLogId j = .ok (log.entries.getLast?.map Entry.logId) := by
  have hlast : db.logTable.last = log.entries.getLast?.map (Entry.row j) := by
    rw [last, h.rows, getLast?_map]
  cases he : log.entries.getLast? with
  | none =>
    rw [he] at hlast
    rw [RedbLogStore.lastLogId, hlast]
    rfl
  | some e =>
    rw [he] at hlast
    rw [RedbLogStore.lastLogId, hlast]
    show (RedbLogStore.readEntry j (e.row j).2).map _ = _
    rw [readEntry_row]
    rfl

theorem readMeta_eq (h : Refines j id db log) : db.readMeta id kPurged = .ok log.purged := by
  rw [RedbLogStore.readMeta, h.purged]
  cases hp : log.purged with
  | none => rfl
  | some p =>
    rw [Option.map_some]
    dsimp only
    rw [id.roundTrip]

theorem getLogState_eq (h : Refines j id db log) :
    db.getLogState j id = .ok ⟨log.purged, log.last⟩ := by
  rw [RedbLogStore.getLogState, h.readMeta_eq, h.lastLogId_eq, AbstractLog.last]
  cases log.entries.getLast? with
  | none => rfl
  | some e => rfl

theorem lastIndex_eq (h : Refines j id db log) (display : StorageError → String) :
    db.lastIndex j id display = .ok (log.last.map LogId.index) := by
  rw [RedbLogStore.lastIndex, h.readMeta_eq, h.lastLogId_eq]
  rfl

theorem tryGetLogEntries_eq (h : Refines j id db log) (lo hi : Bound U64) :
    db.tryGetLogEntries j lo hi =
      .ok (log.entries.filter fun e => lo.startsBy e.logId.index && hi.endsBy e.logId.index) := by
  rw [RedbLogStore.tryGetLogEntries, between, h.rows, filter_map, mapM_map]
  refine (mapM_ok (g := fun e => e) fun e _ => readEntry_row e).trans ?_
  rw [map_id']
  rfl

end Refines

theorem retry_ok {faults : List Fault} {previousIo : Nat} (h : (retry previousIo faults).1 = true) :
    (retry previousIo faults).2 ≠ 0 := by
  induction faults generalizing previousIo with
  | nil => exact one_ne_zero
  | cons f rest ih =>
    cases hf : f.cause with
    | diskFull =>
      simp only [retry, hf] at h ⊢
      have := ih h
      omega
    | previousIo =>
      by_cases hmax : maxPreviousIo < previousIo + 1
      · simp only [retry, hf, if_pos hmax] at h
        cases h
      · simp only [retry, hf, if_neg hmax] at h ⊢
        have := ih h
        omega
    | final =>
      simp only [retry, hf] at h
      cases h

variable (j id)

def Call.run (c : Call M) (faults : List Fault) (db : RedbLogStore) : Bool × RedbLogStore :=
  ((retry 0 faults).1, (c.write j id)^[(retry 0 faults).2] db)

/-- The store after a sequence of calls, next to the log they describe. A call that fails has
been done wholly or not at all. -/
inductive Driven : RedbLogStore → AbstractLog M → Prop
  | created : Driven .created .empty
  | answered {db db' : RedbLogStore} {log : AbstractLog M} {c : Call M} {faults : List Fault}
      (hc : log.Allows c) : Driven db log → c.run j id faults db = (true, db') → Driven db'
      (log.apply c hc)
  | failed {db db' : RedbLogStore} {log : AbstractLog M} {c : Call M} {faults : List Fault}
      (hc : log.Allows c) : Driven db log → c.run j id faults db = (false, db') →
      Driven db' (if (retry 0 faults).2 = 0 then log else log.apply c hc)

variable {j id}

theorem Driven.refines (h : Driven j id db log) : Refines j id db log := by
  induction h with
  | created => exact refines_created j id
  | @answered db db' log c faults hc _ hrun ih =>
    obtain ⟨hok, rfl⟩ := Prod.mk.inj hrun
    rw [iterate_write hc db (retry_ok hok)]
    exact ih.write hc
  | @failed db db' log c faults hc _ hrun ih =>
    obtain ⟨-, rfl⟩ := Prod.mk.inj hrun
    split_ifs with hn
    · rwa [hn]
    · rw [iterate_write hc db hn]
      exact ih.write hc

/-- After any sequence of calls openraft makes, with their transactions retried, the store
answers what the log says. -/
theorem log_store_refines (h : Driven j id db log) (display : StorageError → String) :
    db.getLogState j id = .ok ⟨log.purged, log.last⟩ ∧
      db.lastIndex j id display = .ok (log.last.map LogId.index) ∧
      ∀ lo hi, db.tryGetLogEntries j lo hi =
        .ok (log.entries.filter fun e => lo.startsBy e.logId.index && hi.endsBy e.logId.index) :=
  ⟨h.refines.getLogState_eq, h.refines.lastIndex_eq display, h.refines.tryGetLogEntries_eq⟩

end

section

def plain : Serde (List UInt8) := ⟨fun v => v, .ok, fun _ => rfl⟩

def plainId : Serde LogId where
  toVec l := encodeEntry plain ⟨l, .blank⟩
  fromSlice v := match decodeEntry plain v with
    | .ok e => .ok e.logId
    | .error _ => .error "not an id"
  roundTrip l := by rw [decodeEntry_encodeEntry]

def sampleEntry (index : U64) (payload : Payload (List UInt8)) : Entry (List UInt8) :=
  ⟨⟨2, 1, index⟩, payload⟩

theorem log_store_refines_sample : ∃ db : RedbLogStore,
    db.getLogState plain plainId = .ok ⟨some ⟨3, 1, 7⟩, some ⟨2, 1, 8⟩⟩ ∧
      db.tryGetLogEntries plain .unbounded .unbounded = .ok [sampleEntry 8 (.normal [5])] := by
  have h₁ := @Driven.answered _ plain plainId _ _ _ (.append
    [sampleEntry 0 (.membership [9]), sampleEntry 1 (.normal [5]), sampleEntry 2 .blank])
    [⟨.diskFull, true⟩, ⟨.previousIo, false⟩] ⟨rfl, rfl, rfl, trivial⟩ .created rfl
  have h₂ := @Driven.answered _ _ _ _ _ _ (.truncate ⟨2, 1, 2⟩) [] (fun p hp => by cases hp) h₁ rfl
  have h₃ := @Driven.failed _ _ _ _ _ _ (.purge ⟨3, 1, 7⟩) [⟨.final, false⟩]
    (fun p hp => by cases hp) h₂ rfl
  have h₄ := @Driven.answered _ _ _ _ _ _ (.purge ⟨3, 1, 7⟩) [] (fun p hp => by cases hp) h₃ rfl
  have h₅ := @Driven.answered _ _ _ _ _ _ (.append [sampleEntry 8 (.normal [5])]) []
    ⟨rfl, trivial⟩ h₄ rfl
  obtain ⟨hstate, -, hentries⟩ := log_store_refines h₅ fun _ => ""
  exact ⟨_, hstate, hentries .unbounded .unbounded⟩

end

end MemoryGraph.Raft
