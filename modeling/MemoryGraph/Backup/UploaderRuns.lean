import MemoryGraph.Backup.Uploader
import MemoryGraph.Lib.Runs
import MemoryGraph.Lib.Fallible

/-! The uploader along every interleaving. -/

namespace MemoryGraph.Backup
open Lib List
open MemoryGraph.Server (Sidecar)
variable {u : Uploaded} {a : Answers}

theorem failedWith_ne_committed (msg : String) (e : IoError) (u : Uploaded) :
    failedWith msg e ≠ .committed u := by
  unfold failedWith
  split <;> exact nofun

theorem clusterDir_ne_committed : clusterDir a ≠ .error (.committed u) := by
  unfold clusterDir
  split
  · split_ifs <;> exact nofun
  · exact nofun

theorem metaExists_ne_committed {key : String} {r : Except IoError Unit} :
    metaExists key r ≠ .error (.committed u) := by
  unfold metaExists
  split
  · exact nofun
  · split_ifs
    · exact nofun
    · exact fun h => failedWith_ne_committed _ _ u (Except.error.inj h)

theorem sendPair_ne_committed {job : Job} {dataKey metaKey : String} :
    sendPair job a dataKey metaKey ≠ .error (.committed u) := by
  unfold sendPair
  split
  · split_ifs <;> exact nofun
  · split
    · exact fun h => failedWith_ne_committed _ _ u (Except.error.inj h)
    · split_ifs
      · exact nofun
      · split
        · exact fun h => failedWith_ne_committed _ _ u (Except.error.inj h)
        · exact nofun

theorem uploadOnce_ok {cfg : Sending} {job : Job} {bytes : Nat}
    (h : uploadOnce cfg job a = .ok (bytes, u)) : u.side = job.side := by
  obtain ⟨dir, -, h⟩ := bind_eq_ok.mp h
  obtain ⟨found, -, h⟩ := bind_eq_ok.mp h
  cases found with
  | true => exact absurd h nofun
  | false =>
    obtain ⟨n, -, h⟩ := bind_eq_ok.mp h
    rw [← (Prod.mk.inj (Except.ok.inj h)).2]

theorem uploadOnce_committed {cfg : Sending} {job : Job}
    (h : uploadOnce cfg job a = .error (.committed u)) : u.side = job.side := by
  rcases bind_eq_error.mp h with h | ⟨dir, -, h⟩
  · exact absurd h clusterDir_ne_committed
  rcases bind_eq_error.mp h with h | ⟨found, -, h⟩
  · exact absurd h metaExists_ne_committed
  cases found with
  | true => rw [← Outcome.committed.inj (Except.error.inj h)]
  | false =>
    rcases bind_eq_error.mp h with h | ⟨n, -, h⟩
    · exact absurd h sendPair_ne_committed
    · exact absurd h nofun

def Work.left (w : Work) : Nat :=
  match w.stage with
  | .uploading => 3 * (uploadRetries - w.attempt) + 3
  | .failing _ _ => 3 * (uploadRetries - w.attempt) + 2
  | .backoff => 3 * (uploadRetries - w.attempt) + 4
  | .ended _ => 1

def Op.enqueues (cfg : Sending) : Op → Option Sidecar
  | .built leads side _ => if Uploader.uploads cfg leads then some side else none
  | .uploadNow side _ => some side
  | _ => none

namespace Uploader

inductive Moves (cfg : Sending) (q : Uploader) : Op → Uploader → Prop
  | ignored {leads side path} : Moves cfg q (.built leads side path) q
  | queued {op job} {side : Sidecar} (waiter : Option Waiter) (running : q.stop = false)
      (asked : ∀ w ∈ waiter, w = ⟨q.issued.length, side.index⟩)
      (waiters : job.waiters.Perm (waiter.toList ++ (q.pending.map (·.waiters)).getD []))
      (newer : side.index ≤ job.side.index) (old : ∀ p ∈ q.pending, p.side.index ≤ job.side.index)
      (fresh : q.pending = none → job.side.index = side.index)
      (enqueues : op.enqueues cfg = some side) :
      Moves cfg q op { q with pending := some job, issued := q.issued ++ waiter.toList }
  | refused {side path} (stopped : q.stop = true) : Moves cfg q (.uploadNow side path)
      { q with
        issued := q.issued ++ [⟨q.issued.length, side.index⟩]
        answered := q.answered ++ [(⟨q.issued.length, side.index⟩, .error .stopped)] }
  | stopped : Moves cfg q .stop q.stopped
  | exits (there : q.exited = false) (stopped : q.stop = true) :
    Moves cfg q .take { q with exited := true }
  | takes {job} (running : q.stop = false) (idle : q.work = none) (queued : q.pending = some job) :
      Moves cfg q .take { q with pending := none, work := some ⟨job, 0, .uploading⟩ }
  | works {op stats} {w w' : Work} (busy : q.work = some w) (job : w'.job = w.job)
      (done : ∀ u, w'.stage = .ended (.done u) → u.side = w.job.side)
      (superseded : w'.stage = .ended .superseded → q.supersededOrStopped = true)
      (left : Work.left w' < Work.left w) :
      Moves cfg q op { q with work := some w', stats := stats }
  | answers {w : Work} {r : Except UploadError Uploaded} (busy : q.work = some w)
      (ok : ∀ u, r = .ok u → w.stage = .ended (.done u)) :
      Moves cfg q .finish
        { q with work := none, answered := q.answered ++ w.job.waiters.map fun x => (x, r) }
  | moves {w : Work} {next : Job} (busy : q.work = some w) (ended : w.stage = .ended .superseded)
      (queued : q.pending = some next) :
      Moves cfg q .finish { q with
        work := none
        pending := some { next with waiters := next.waiters ++ w.job.waiters } }
  | drops {w : Work} (busy : q.work = some w) (ended : w.stage = .ended .superseded)
      (empty : q.pending = none) :
      Moves cfg q .finish { q with work := none, dropped := q.dropped ++ w.job.waiters }

variable {cfg : Sending} {q q' : Uploader} {op : Op}

theorem enqueue_stopped (h : q.stop = true) (side : Sidecar) (path : String)
    (waiter : Option Waiter) : q.enqueue side path waiter = (q, waiter) := by
  rw [enqueue, if_pos h]

theorem enqueue_running (h : q.stop = false) (side : Sidecar) (path : String)
    (waiter : Option Waiter) :
    ∃ job : Job, q.enqueue side path waiter = ({ q with pending := some job }, none) ∧
      job.waiters.Perm (waiter.toList ++ (q.pending.map (·.waiters)).getD []) ∧
      side.index ≤ job.side.index ∧ (∀ p ∈ q.pending, p.side.index ≤ job.side.index) ∧
      (q.pending = none → job.side.index = side.index) := by
  rw [enqueue, if_neg (by rw [h]; decide)]
  cases hp : q.pending with
  | none => exact ⟨_, rfl, by simp, Nat.le_refl _, nofun, fun _ => rfl⟩
  | some old =>
    dsimp only
    split_ifs with hlt
    · refine ⟨_, rfl, perm_append_comm, hlt.le, fun p hp => ?_, nofun⟩
      rw [Option.mem_some] at hp
      rw [hp]
    · refine ⟨_, rfl, List.Perm.refl _, Nat.le_refl _, fun p hp => ?_, nofun⟩
      rw [Option.mem_some] at hp
      rw [← hp]
      exact Nat.le_of_not_lt hlt

theorem moves_of_step (h : q.step cfg op = some q') : q.Moves cfg op q' := by
  cases op with
  | built leads side path =>
    cases h
    unfold snapshotBuilt
    split_ifs with hup
    · cases hstop : q.stop with
      | true =>
        rw [enqueue_stopped hstop]
        exact .ignored
      | false =>
        obtain ⟨job, heq, hwaiters, hnewer, hold, hfresh⟩ := enqueue_running hstop side path none
        have hmove : q.Moves cfg (.built leads side path)
            { q with pending := some job, issued := q.issued ++ [] } :=
          .queued none hstop nofun hwaiters hnewer hold hfresh (if_pos hup)
        rw [heq]
        rwa [append_nil] at hmove
    · exact .ignored
  | uploadNow side path =>
    cases h
    unfold uploadNow
    dsimp only
    cases hstop : q.stop with
    | true =>
      rw [enqueue_stopped hstop]
      exact .refused hstop
    | false =>
      obtain ⟨job, heq, hwaiters, hnewer, hold, hfresh⟩ :=
        enqueue_running hstop side path (some ⟨q.issued.length, side.index⟩)
      have hmove : q.Moves cfg (.uploadNow side path)
          { q with pending := some job, issued := q.issued ++ [⟨q.issued.length, side.index⟩] } :=
        .queued (some ⟨q.issued.length, side.index⟩) hstop (fun w hw => (Option.some.inj hw).symm)
          hwaiters hnewer hold hfresh rfl
      rw [heq]
      dsimp only
      rwa [Option.toList_none, map_nil, append_nil]
  | stop =>
    cases h
    exact .stopped
  | take =>
    rw [step] at h
    split_ifs at h with hexit hstop
    · cases h
      exact .exits (Bool.eq_false_of_not_eq_true fun h => hexit (.inl h)) hstop
    · obtain ⟨job, hjob, rfl⟩ := Option.map_eq_some_iff.mp h
      rw [not_or, Option.not_isSome_iff_eq_none] at hexit
      exact .takes (Bool.eq_false_of_not_eq_true hstop) hexit.2 hjob
  | attempt a now =>
    rw [step] at h
    split at h
    · next w hw =>
      split_ifs at h with hstage
      cases h
      have hleft : w.left = 3 * (uploadRetries - w.attempt) + 3 := by rw [Work.left, hstage]
      unfold attempted
      split
      · next hdone =>
        refine .works hw rfl (fun u hu => ?_) nofun (by rw [hleft, Work.left]; dsimp only; omega)
        obtain rfl := JobEnd.done.inj (Stage.ended.inj hu)
        exact uploadOnce_ok hdone
      · next hdone =>
        refine .works hw rfl (fun u hu => ?_) nofun (by rw [hleft, Work.left]; dsimp only; omega)
        obtain rfl := JobEnd.done.inj (Stage.ended.inj hu)
        exact uploadOnce_committed hdone
      · exact .works hw rfl nofun nofun (by rw [hleft, Work.left]; dsimp only; omega)
      · exact .works hw rfl nofun nofun (by rw [hleft, Work.left]; dsimp only; omega)
      · exact .works hw rfl nofun nofun (by rw [hleft, Work.left]; dsimp only; omega)
    · exact absurd h nofun
  | check =>
    rw [step] at h
    split at h
    · next job n fatal e hw =>
      cases h
      unfold checked
      split_ifs with hsuper hgive
      · exact .works hw rfl nofun (fun _ => hsuper) (by simp only [Work.left]; omega)
      · exact .works hw rfl nofun nofun (by simp only [Work.left]; omega)
      · refine .works hw rfl nofun nofun ?_
        simp only [Work.left]
        dsimp only at hgive
        omega
    · exact absurd h nofun
  | resume =>
    rw [step] at h
    split at h
    · next w hw =>
      split_ifs at h with hstage
      cases h
      exact .works hw rfl nofun nofun (by rw [Work.left, Work.left, hstage]; dsimp only; omega)
    · exact absurd h nofun
  | finish =>
    rw [step] at h
    split at h
    · next job n e hw =>
      cases h
      cases e with
      | done u => exact .answers hw fun u' hu => by rw [Except.ok.inj hu]
      | failed e => exact .answers hw nofun
      | superseded =>
        unfold finished
        cases hp : q.pending with
        | some next => exact .moves hw rfl hp
        | none =>
          have hdrop : q.Moves cfg .finish
              { q with work := none, dropped := q.dropped ++ job.waiters } :=
            .drops hw rfl hp
          rwa [hp] at hdrop
    · exact absurd h nofun

def waiting (q : Uploader) : List Waiter :=
  (q.pending.map (·.waiters)).getD [] ++ (q.work.map (·.job.waiters)).getD []

structure Placed (q : Uploader) : Prop where
  perm : (q.answered.map Prod.fst ++ (q.waiting ++ q.dropped)).Perm q.issued
  ids : q.issued.map (·.id) = List.range q.issued.length
  running : q.stop = false → q.dropped = [] ∧ q.exited = false
  superseded : ∀ w ∈ q.work, w.stage = .ended .superseded → q.supersededOrStopped = true

theorem placed_start : start.Placed where
  perm := .refl _
  ids := rfl
  running := fun _ => ⟨rfl, rfl⟩
  superseded := nofun

theorem Placed.nodup (h : q.Placed) : q.issued.Nodup :=
  List.Nodup.of_map (·.id) (h.ids ▸ nodup_range)

theorem map_id_issued {w : Waiter} (h : q.issued.map (·.id) = List.range q.issued.length)
    (hw : w.id = q.issued.length) :
    (q.issued ++ [w]).map (·.id) = List.range (q.issued ++ [w]).length := by
  rw [map_append, h, length_append, length_singleton, range_succ, map_singleton, hw]

theorem placed_step (hq : q.Placed) (h : q.step cfg op = some q') : q'.Placed := by
  have hperm := perm_iff_count.mp hq.perm
  simp only [count_append, waiting] at hperm
  cases moves_of_step h with
  | ignored => exact hq
  | queued waiter running asked waiters newer old fresh enqueues =>
    have hjob := perm_iff_count.mp waiters
    simp only [count_append] at hjob
    refine ⟨perm_iff_count.mpr fun x => ?_, ?_, hq.running, ?_⟩
    · have h1 := hperm x
      have h2 := hjob x
      simp only [waiting, count_append, Option.map_some, Option.getD_some]
      omega
    · cases waiter with
      | none =>
        rw [Option.toList_none, append_nil]
        exact hq.ids
      | some w => exact map_id_issued hq.ids (by rw [asked w rfl])
    · intro w hw hend
      rw [supersededOrStopped, Option.isSome_some, Bool.or_true]
  | refused stopped =>
    refine ⟨perm_iff_count.mpr fun x => ?_, map_id_issued hq.ids rfl, hq.running, hq.superseded⟩
    have h1 := hperm x
    simp only [waiting, count_append, map_append, map_cons, map_nil]
    omega
  | stopped =>
    refine ⟨perm_iff_count.mpr fun x => ?_, hq.ids, nofun, fun _ _ _ => rfl⟩
    have h1 := hperm x
    simp only [Uploader.stopped, waiting, count_append, Option.map_none,
      Option.getD_none, count_nil]
    omega
  | exits there stopped =>
    exact ⟨hq.perm, hq.ids, fun hrun => absurd stopped (by rw [hrun]; decide), hq.superseded⟩
  | takes running idle queued =>
    refine ⟨perm_iff_count.mpr fun x => ?_, hq.ids, hq.running, fun w hw hend => ?_⟩
    · have h1 := hperm x
      rw [idle, queued] at h1
      simp only [waiting, count_append, Option.map_none, Option.map_some, Option.getD_none,
        Option.getD_some, count_nil] at h1 ⊢
      omega
    · cases hw
      exact absurd hend nofun
  | works busy job done superseded left =>
    refine ⟨?_, hq.ids, hq.running, fun w hw hend => ?_⟩
    · have hsame := hq.perm
      rw [waiting, busy, Option.map_some, ← job] at hsame
      exact hsame
    · cases hw
      exact superseded hend
  | answers busy ok =>
    refine ⟨perm_iff_count.mpr fun x => ?_, hq.ids, hq.running, nofun⟩
    have h1 := hperm x
    rw [busy] at h1
    simp only [waiting, count_append, map_append, map_map, Function.comp_def, map_id',
      Option.map_none, Option.map_some, Option.getD_none, Option.getD_some, count_nil] at h1 ⊢
    omega
  | moves busy ended queued =>
    refine ⟨perm_iff_count.mpr fun x => ?_, hq.ids, hq.running, nofun⟩
    have h1 := hperm x
    rw [busy, queued] at h1
    simp only [waiting, count_append, Option.map_none, Option.map_some, Option.getD_none,
      Option.getD_some, count_nil] at h1 ⊢
    omega
  | drops busy ended empty =>
    -- a job is given up for nothing queued only after a stop
    have hstop : q.stop = true := by
      have := hq.superseded _ busy ended
      rwa [supersededOrStopped, empty, Option.isSome_none, Bool.or_false] at this
    refine ⟨perm_iff_count.mpr fun x => ?_, hq.ids, fun hrun =>
      absurd hstop (by rw [hrun]; decide), nofun⟩
    have h1 := hperm x
    rw [busy, empty] at h1
    simp only [waiting, empty, count_append, Option.map_none, Option.map_some, Option.getD_none,
      Option.getD_some, count_nil] at h1 ⊢
    omega

def workerStep : Op → Bool
  | .take | .attempt _ _ | .check | .resume | .finish => true
  | _ => false

def left (q : Uploader) : Nat :=
  (if q.pending.isSome then 3 * uploadRetries + 4 else 0) + (q.work.map Work.left).getD 0 +
    if q.exited then 0 else 1

theorem enqueues_of_workerStep (hop : workerStep op = true) : op.enqueues cfg = none := by
  cases op with
  | built leads side path => exact absurd hop nofun
  | uploadNow side path => exact absurd hop nofun
  | _ => rfl

theorem left_step (hop : workerStep op = true) (h : q.step cfg op = some q') :
    q'.left < q.left := by
  cases moves_of_step h with
  | ignored => exact absurd hop nofun
  | queued waiter running asked waiters newer old fresh enqueues =>
    rw [enqueues_of_workerStep hop] at enqueues
    exact absurd enqueues nofun
  | refused stopped => exact absurd hop nofun
  | stopped => exact absurd hop nofun
  | exits there stopped =>
    simp only [left, there]
    simp
  | takes running idle queued =>
    have hwork : ∀ job : Job, (⟨job, 0, .uploading⟩ : Work).left < 3 * uploadRetries + 4 :=
      fun _ => Nat.lt_succ_self _
    simpa [left, idle, queued] using hwork _
  | works busy job done superseded hleft =>
    simp only [left, busy, Option.map_some, Option.getD_some]
    omega
  | answers busy ok =>
    have hwork : ∀ w : Work, 0 < w.left := by
      intro w
      unfold Work.left
      split <;> omega
    simpa [left, busy] using hwork _
  | moves busy ended queued =>
    simp only [left, busy, queued, Option.map_some, Option.getD_some, Work.left, ended]
    simp
  | drops busy ended empty =>
    simp only [left, busy, empty, Option.map_some, Option.getD_some, Work.left, ended]
    simp

theorem length_le_left {ops : List Op} (hops : ∀ op ∈ ops, workerStep op = true)
    (h : run (step cfg) q ops = some q') : ops.length + q'.left ≤ q.left := by
  induction ops generalizing q with
  | nil =>
    cases h
    exact Nat.le_of_eq (Nat.zero_add _)
  | cons op ops ih =>
    obtain ⟨u, hu, h⟩ := Option.bind_eq_some_iff.mp h
    have hlt := left_step (hops op mem_cons_self) hu
    have hle := ih (fun x hx => hops x (mem_cons_of_mem op hx)) h
    rw [length_cons]
    omega

theorem exists_workerStep (hq : q.Placed) (hstop : q.stop = false)
    (hbusy : ¬(q.work = none ∧ q.pending = none)) (cfg : Sending) (a : Answers) (now : Nat) :
    ∃ op ∈ [Op.take, .attempt a now, .check, .resume, .finish], (q.step cfg op).isSome = true := by
  have hexit := (hq.running hstop).2
  rcases hw : q.work with _ | ⟨job, n, stage⟩
  · rcases hp : q.pending with _ | job
    · exact absurd ⟨hw, hp⟩ hbusy
    · exact ⟨.take, by simp, by simp [step, hexit, hw, hstop, hp]⟩
  · cases stage with
    | uploading => exact ⟨.attempt a now, by simp, by simp [step, hw]⟩
    | failing fatal e => exact ⟨.check, by simp, by simp [step, hw]⟩
    | backoff => exact ⟨.resume, by simp, by simp [step, hw]⟩
    | ended e => exact ⟨.finish, by simp, by simp [step, hw]⟩

/-- A snapshot queued while nothing is queued behind the running upload is newer than it. -/
def InOrder (cfg : Sending) (q : Uploader) (op : Op) : Prop :=
  ∀ side ∈ op.enqueues cfg, q.stop = false → q.pending = none → ∀ w ∈ q.work,
    w.job.side.index < side.index

instance (cfg : Sending) (q : Uploader) (op : Op) : Decidable (q.InOrder cfg op) :=
  inferInstanceAs (Decidable (∀ side ∈ op.enqueues cfg, q.stop = false → q.pending = none →
    ∀ w ∈ q.work, w.job.side.index < side.index))

structure Ordered (q : Uploader) : Prop where
  newer : ∀ w ∈ q.work, ∀ p ∈ q.pending, w.job.side.index < p.side.index
  pendingAsked : ∀ p ∈ q.pending, ∀ x ∈ p.waiters, x.asked ≤ p.side.index
  workAsked : ∀ w ∈ q.work, ∀ x ∈ w.job.waiters, x.asked ≤ w.job.side.index
  done : ∀ w ∈ q.work, ∀ u, w.stage = .ended (.done u) → u.side = w.job.side
  answered : ∀ r ∈ q.answered, ∀ u, r.2 = .ok u → r.1.asked ≤ u.side.index

theorem ordered_start : start.Ordered where
  newer := nofun
  pendingAsked := nofun
  workAsked := nofun
  done := nofun
  answered := nofun

theorem ordered_step (hq : q.Ordered) (hop : q.InOrder cfg op) (h : q.step cfg op = some q') :
    q'.Ordered := by
  cases moves_of_step h with
  | ignored => exact hq
  | queued waiter running asked waiters newer old fresh enqueues =>
    constructor
    · intro w hw p hp
      cases hp
      cases hpending : q.pending with
      | none =>
        rw [fresh hpending]
        exact hop _ enqueues running hpending w hw
      | some p' => exact (hq.newer w hw p' hpending).trans_le (old p' hpending)
    · intro p hp x hx
      cases hp
      rcases mem_append.mp (waiters.subset hx) with hx | hx
      · rw [asked x (Option.mem_toList.mp hx)]
        exact newer
      · cases hpending : q.pending with
        | none =>
          rw [hpending] at hx
          exact absurd hx nofun
        | some p' =>
          rw [hpending] at hx
          exact (hq.pendingAsked p' hpending x hx).trans (old p' hpending)
    · exact hq.workAsked
    · exact hq.done
    · exact hq.answered
  | refused stopped =>
    refine ⟨hq.newer, hq.pendingAsked, hq.workAsked, hq.done, fun r hr u hu => ?_⟩
    rcases mem_append.mp hr with hr | hr
    · exact hq.answered r hr u hu
    · rw [mem_singleton.mp hr] at hu
      exact absurd hu nofun
  | stopped => exact ⟨nofun, nofun, hq.workAsked, hq.done, hq.answered⟩
  | exits there stopped => exact ⟨hq.newer, hq.pendingAsked, hq.workAsked, hq.done, hq.answered⟩
  | takes running idle queued =>
    refine ⟨nofun, nofun, fun w hw => ?_, fun w hw u hu => ?_, hq.answered⟩
    · cases hw
      exact hq.pendingAsked _ queued
    · cases hw
      exact absurd hu nofun
  | works busy job done superseded left =>
    refine ⟨fun w hw => ?_, hq.pendingAsked, fun w hw => ?_, fun w hw u hu => ?_, hq.answered⟩ <;>
      cases hw
    · rw [job]
      exact hq.newer _ busy
    · rw [job]
      exact hq.workAsked _ busy
    · rw [job]
      exact done u hu
  | answers busy ok =>
    refine ⟨nofun, hq.pendingAsked, nofun, nofun, fun r hr u hu => ?_⟩
    rcases mem_append.mp hr with hr | hr
    · exact hq.answered r hr u hu
    · obtain ⟨x, hx, rfl⟩ := mem_map.mp hr
      rw [hq.done _ busy u (ok u hu)]
      exact hq.workAsked _ busy x hx
  | moves busy ended queued =>
    refine ⟨nofun, fun p hp x hx => ?_, nofun, nofun, hq.answered⟩
    cases hp
    rcases mem_append.mp hx with hx | hx
    · exact hq.pendingAsked _ queued x hx
    · exact (hq.workAsked _ busy x hx).trans (hq.newer _ busy _ queued).le
  | drops busy ended empty => exact ⟨nofun, hq.pendingAsked, nofun, nofun, hq.answered⟩

/-- After any interleaving every waiter was answered once or waits in one place, unless a stop
dropped it. If every snapshot queued right behind a running upload is newer than it, a success is
for a snapshot as new as the one asked for. -/
theorem uploader_along (cfg : Sending) (ops : List Op) (q : Uploader)
    (h : run (step cfg) start ops = some q) :
    q.issued.Nodup ∧ (q.answered.map Prod.fst ++ (q.waiting ++ q.dropped)).Perm q.issued ∧
    (q.stop = false → q.dropped = [] ∧
      (q.work = none ∧ q.pending = none → (q.answered.map Prod.fst).Perm q.issued) ∧
      (¬(q.work = none ∧ q.pending = none) →
        ∀ a now, ∃ op ∈ [Op.take, .attempt a now, .check, .resume, .finish],
        (q.step cfg op).isSome = true)) ∧
    (∀ later q', (∀ op ∈ later, workerStep op = true) → run (step cfg) q later = some q' →
      later.length ≤ q.left) ∧
    (Allowed (step cfg) (InOrder cfg) start ops →
      (∀ r ∈ q.answered, ∀ u, r.2 = .ok u → r.1.asked ≤ u.side.index) ∧
      ∀ w ∈ q.work, w.stage = .ended .superseded →
        q.stop = true ∨ ∃ p ∈ q.pending, w.job.side.index < p.side.index) := by
  have hplaced := run_inv placed_step placed_start h
  refine ⟨hplaced.nodup, hplaced.perm, fun hstop =>
    ⟨(hplaced.running hstop).1, fun hidle => ?_, fun hbusy =>
    exists_workerStep hplaced hstop hbusy cfg⟩, fun later q' hlater hrun => ?_, fun hops => ?_⟩
  · have hperm := hplaced.perm
    rwa [waiting, hidle.1, hidle.2, (hplaced.running hstop).1, Option.map_none, Option.map_none,
      Option.getD_none, List.append_nil, List.append_nil, List.append_nil] at hperm
  · have := length_le_left hlater hrun
    omega
  · have hordered : q.Ordered := (reach_run .start hops h).inv ordered_start fun _ _ _ =>
      ordered_step
    refine ⟨hordered.answered, fun w hw hend => ?_⟩
    have hsuper := hplaced.superseded w hw hend
    rw [supersededOrStopped, Bool.or_eq_true, Option.isSome_iff_exists] at hsuper
    rcases hsuper with hstop | ⟨p, hp⟩
    · exact .inl hstop
    · exact .inr ⟨p, hp, hordered.newer w hw p hp⟩

def snapshotAt (index : Nat) : Sidecar := ⟨1, index, some ⟨1, 1, index⟩, [], "", "", 0, "", 12⟩

def sendingTo : Sending := ⟨"file:///b", fun key => "file:///b/" ++ key, .all⟩

def refusing : Answers :=
  ⟨some "c", .error ⟨.notFound, ""⟩, .ok (), .error ⟨.other, "reset"⟩, (0, ""), .ok 0⟩

def accepting : Answers := ⟨some "c", .error ⟨.notFound, ""⟩, .ok (), .ok 0, (0, ""), .ok 9⟩

def overtaken (index : Nat) : List Op :=
  [.uploadNow (snapshotAt 10) "snap-1-10.redb", .take, .built true (snapshotAt index) "next.redb",
    .attempt refusing 0, .check, .finish, .take, .attempt accepting 5, .finish]

theorem uploader_along_newer : ∃ q, run (step sendingTo) start (overtaken 12) = some q ∧
    (∃ u, q.answered = [(⟨0, 10⟩, .ok u)] ∧ u.side.index = 12) ∧
    (q.answered.map Prod.fst).Perm q.issued ∧ ∀ r ∈ q.answered, ∀ u, r.2 = .ok u →
    r.1.asked ≤ u.side.index := by
  refine ⟨_, rfl, ⟨_, rfl, rfl⟩, ?_⟩
  obtain ⟨-, -, hrunning, -, hordered⟩ := uploader_along sendingTo (overtaken 12) _ rfl
  exact ⟨(hrunning rfl).2.1 ⟨rfl, rfl⟩, (hordered (by decide +kernel)).1⟩

/-- Snapshot 10 is given up for the older snapshot 5, and its waiter is answered with that. -/
theorem older_snapshot_answers :
    (∃ q w p, run (step sendingTo) start ((overtaken 5).take 5) = some q ∧ q.work = some w ∧
      q.pending = some p ∧ q.stop = false ∧ w.stage = .ended .superseded ∧
      p.side.index < w.job.side.index) ∧
    ∃ q u, run (step sendingTo) start (overtaken 5) = some q ∧ q.answered = [(⟨0, 10⟩, .ok u)] ∧
      u.side.index = 5 :=
  ⟨⟨_, _, _, rfl, rfl, rfl, rfl, rfl, by decide⟩, _, _, rfl, rfl, rfl⟩

end Uploader
end MemoryGraph.Backup
