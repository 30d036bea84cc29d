import MemoryGraph.Server.Install
import MemoryGraph.Lib.Runs

/-! What an install leaves at the store path, by how its file operations go. -/

namespace MemoryGraph.Server
open Lib Lib.Prog Function

inductive How
  | done
  | failed
  | crashed
deriving DecidableEq, Repr

section
variable {β : Type}

def Outcome.how : Outcome β → How
  | .ok => .done
  | .fail .. => .failed
  | .crash _ => .crashed

variable (env : StoreFiles β) (f : FileOp → Outcome β) (received : Option β)

def StoreFiles.newOf : Option β := received.bind fun x => (env.check x).toOption

def StoreFiles.isStore (x : β) : Bool :=
  match env.format x with
  | .ok v => v.isSome
  | .error _ => false

def Swaps : Prop :=
  (env.newOf received).any env.isStore ∧
    (∀ o ∈ [FileOp.validate, .copy, .drain, .format, .moveAside], (f o).how = .done) ∧
    ∀ o ∈ [FileOp.removeStaged, .removeOld], (f o).how ≠ .crashed

/-- An install that has made the second rename fails: the store cannot be reopened, or the received
file not be promoted. -/
def FailsLate : Prop :=
  (∀ o ∈ [FileOp.removeAside, .dropStaged, .cleanup], (f o).how ≠ .crashed) ∧
    ((f .reopen).how = .failed ∧ (f .reopenAfterError).how ≠ .crashed ∨
      (f .reopen).how = .done ∧ (f .promote).how = .failed)

/-- With the old store moved aside there is no crash before the second rename, one that fails is
undone, and nothing fails after one that is made. -/
def Unbroken : Prop :=
  Swaps env f received → (f .moveIn).how ≠ .crashed ∧
    ((f .moveIn).how = .failed → (f .moveBack).how = .done) ∧
    ((f .moveIn).how = .done → ¬FailsLate f)

instance : Decidable (Swaps env f received) := inferInstanceAs (Decidable (_ ∧ _))
instance : Decidable (FailsLate f) := inferInstanceAs (Decidable (_ ∧ _))
instance : Decidable (Unbroken env f received) := inferInstanceAs (Decidable (_ → _))

inductive Ended (a : β) (late : Prop) : Option β → Prop
  | old (h : Swaps env f received → (f .moveIn).how = .failed ∧ (f .moveBack).how = .done) :
    Ended a late (some a)
  | new (hs : Swaps env f received) (hmoved : (f .moveIn).how = .done) (hlate : late) :
    Ended a late (env.newOf received)
  | lost {p : Option β} (hs : Swaps env f received) (hp : p = none ∨ p = some env.fresh)
    (hcut : (f .moveIn).how = .crashed ∨ (f .moveIn).how = .failed ∧ (f .moveBack).how ≠ .done) :
    Ended a late p

variable {env f received} {a : β} {late : Prop} {o : FileOp}

theorem Swaps.exists_new (h : Swaps env f received) : ∃ b, env.newOf received = some b := by
  obtain ⟨b, hb, -⟩ := (Option.any_eq_true ..).mp h.1
  exact ⟨b, hb⟩

theorem Ended.mono {late' : Prop} {p : Option β} (hl : late → late')
    (h : Ended env f received a late p) : Ended env f received a late' p := by
  cases h with
  | old h => exact .old h
  | new hs hmoved hlate => exact .new hs hmoved (hl hlate)
  | lost hs hp hcut => exact .lost hs hp hcut

theorem Ended.none (h : Ended env f received a late none) : Swaps env f received ∧
    ((f .moveIn).how = .crashed ∨ (f .moveIn).how = .failed ∧ (f .moveBack).how ≠ .done) := by
  generalize hp : Option.none = p at h
  cases h with
  | old _ => cases hp
  | new hs _ _ =>
    obtain ⟨b, hb⟩ := hs.exists_new
    rw [hb] at hp
    cases hp
  | lost hs _ hcut => exact ⟨hs, hcut⟩

theorem not_failsLate (ho : o ∈ [FileOp.removeAside, .dropStaged, .cleanup])
    (h : (f o).how = .crashed) : ¬FailsLate f := fun hl => hl.1 o ho h

variable {act : Files β → Except StoreError (Files β)} {torn : Option β → Files β → Files β}
variable {P Q F C : Files β → Prop}

theorem triple_perform
    (hdone : ∀ fs fs', P fs → (f o).how = .done → act fs = .ok fs' → Q fs')
    (hrefused : ∀ fs e, P fs → (f o).how = .done → act fs = .error e → F fs)
    (hfail : ∀ fs t, P fs → (f o).how = .failed → F (torn t fs))
    (hcrash : ∀ fs t, P fs → (f o).how = .crashed → C (torn t fs)) :
    Triple P (perform f o act torn) (fun _ => Q) F C := by
  intro fs hfs
  unfold perform
  cases ho : f o with
  | ok =>
    have hhow : (f o).how = .done := by rw [ho, Outcome.how]
    cases hact : act fs with
    | ok fs' => exact hdone fs fs' hfs hhow hact
    | error e => exact hrefused fs e hfs hhow hact
  | fail msg t => exact hfail fs t hfs (by rw [ho, Outcome.how])
  | crash t => exact hcrash fs t hfs (by rw [ho, Outcome.how])

theorem triple_needed (ho : o ∈ [FileOp.validate, .copy, .drain, .format, .moveAside])
    (hP : ∀ fs, P fs → fs .path = some a) (htorn : ∀ t fs, torn t fs .path = fs .path)
    (hdone : ∀ fs fs', P fs → act fs = .ok fs' → Q fs')
    (hrefused : ∀ fs e, P fs → act fs = .error e → ¬Swaps env f received) :
    Triple P (perform f o act torn) (fun _ fs => (f o).how = .done ∧ Q fs)
      (fun fs => Ended env f received a late (fs .path))
      (fun fs => Ended env f received a (¬FailsLate f) (fs .path)) := by
  refine triple_perform (fun fs fs' hfs h he => ⟨h, hdone fs fs' hfs he⟩) (fun fs e hfs _ he => ?_)
    (fun fs t hfs h => ?_) fun fs t hfs h => ?_
  · rw [hP fs hfs]
    exact .old fun hs => absurd hs (hrefused fs e hfs he)
  all_goals
    rw [htorn, hP fs hfs]
    refine .old fun hs => ?_
    rw [hs.2.1 o ho] at h
    cases h

theorem triple_ignored (hact : ∀ fs fs', P fs → act fs = .ok fs' → P fs')
    (hcrash : ∀ fs, P fs → (f o).how = .crashed → C fs) :
    Triple P (atomic f o act) (fun _ fs => (f o).how ≠ .crashed ∧ P fs)
      (fun fs => (f o).how ≠ .crashed ∧ P fs) C := by
  refine triple_perform (fun fs fs' hfs h he => ⟨?_, hact fs fs' hfs he⟩) (fun fs e hfs h _ =>
    ⟨?_, hfs⟩) (fun fs _ hfs h => ⟨?_, hfs⟩) fun fs _ hfs h => hcrash fs hfs h
  all_goals
    rw [h]
    decide

theorem removeFile_ne {n m : FileName} (hm : m ≠ n) {fs fs' : Files β}
    (h : removeFile n fs = .ok fs') : fs' m = fs m := by
  unfold removeFile at h
  cases hfs : fs n with
  | none =>
    rw [hfs] at h
    cases h
  | some x =>
    rw [hfs] at h
    cases h
    exact update_of_ne hm _ _

theorem triple_settled (late : Prop) {n : FileName} (hn : .path ≠ n)
    (hcrash : (f o).how = .crashed → ¬FailsLate f) :
    Triple (fun fs => Ended env f received a late (fs .path)) (atomic f o (removeFile n))
      (fun _ fs => (f o).how ≠ .crashed ∧ Ended env f received a late (fs .path))
      (fun fs => (f o).how ≠ .crashed ∧ Ended env f received a late (fs .path))
      (fun fs => Ended env f received a (¬FailsLate f) (fs .path)) :=
  triple_ignored (fun _ _ hfs he => removeFile_ne hn he ▸ hfs) fun _ hfs h =>
    hfs.mono fun _ => hcrash h

structure Staged (a b : β) (fs : Files β) : Prop where
  path : fs .path = some a
  received : fs .received = some b
  staged : fs .staged = some b

structure Moved (a b : β) (fs : Files β) : Prop where
  path : fs .path = none
  old : fs .old = some a
  received : fs .received = some b
  staged : fs .staged = some b

structure Placed (b : β) (fs : Files β) : Prop where
  path : fs .path = some b
  received : fs .received = some b

variable {b : β}

theorem Placed.ended {fs : Files β} (h : Placed b fs) (hb : env.newOf received = some b)
    (hs : Swaps env f received) (hmoved : (f .moveIn).how = .done) (hlate : late) :
    Ended env f received a late (fs .path) := by
  rw [h.path, ← hb]
  exact .new hs hmoved hlate

theorem Placed.remove {n : FileName} (hpath : .path ≠ n) (hreceived : .received ≠ n)
    (fs fs' : Files β) (h : Placed b fs) (he : removeFile n fs = .ok fs') : Placed b fs' :=
  ⟨(removeFile_ne hpath he).trans h.path, (removeFile_ne hreceived he).trans h.received⟩

theorem checkFormat_eq (env : StoreFiles β) {fs : Files β} (h : fs .staged = some b) :
    checkFormat env fs = .ok fs ∧ env.isStore b = true ∨
      (∃ e, checkFormat env fs = .error e) ∧ env.isStore b = false := by
  unfold checkFormat StoreFiles.isStore
  rw [h]
  dsimp only
  rcases env.format b with e | _ | v
  · exact .inr ⟨⟨e, rfl⟩, rfl⟩
  · exact .inr ⟨⟨_, rfl⟩, rfl⟩
  · exact .inl ⟨rfl, rfl⟩

theorem triple_format (hb : env.newOf received = some b) :
    Triple (Staged a b) (atomic f .format (checkFormat env))
      (fun _ fs => (f .format).how = .done ∧ env.isStore b = true ∧ Staged a b fs)
      (fun fs => Ended env f received a late (fs .path))
      (fun fs => Ended env f received a (¬FailsLate f) (fs .path)) := by
  refine triple_needed (by decide) (fun _ h => h.path) (fun _ _ => rfl) (fun fs fs' hfs he => ?_)
    fun fs e hfs he hs => ?_
  · rcases checkFormat_eq env hfs.staged with ⟨h, hstore⟩ | ⟨⟨_, h⟩, -⟩
    · rw [h] at he
      cases he
      exact ⟨hstore, hfs⟩
    · rw [h] at he
      cases he
  · rcases checkFormat_eq env hfs.staged with ⟨h, -⟩ | ⟨-, hstore⟩
    · rw [h] at he
      cases he
    · have := hs.1
      rw [hb, Option.any_some, hstore] at this
      cases this

theorem triple_moveAside : Triple (Staged a b) (atomic f .moveAside (rename .path .old))
    (fun _ fs => (f .moveAside).how = .done ∧ Moved a b fs)
    (fun fs => Ended env f received a late (fs .path))
    (fun fs => Ended env f received a (¬FailsLate f) (fs .path)) := by
  refine triple_needed (by decide) (fun _ h => h.path) (fun _ _ => rfl) (fun fs fs' hfs he => ?_)
    fun fs e hfs he => ?_
  · rw [rename, hfs.path] at he
    cases he
    exact ⟨by simp, by simp, by simpa using hfs.received, by simpa using hfs.staged⟩
  · rw [rename, hfs.path] at he
    cases he

theorem triple_moveIn (hs : Swaps env f received) :
    Triple (Moved a b) (atomic f .moveIn (rename .staged .path))
      (fun _ fs => (f .moveIn).how = .done ∧ Placed b fs)
      (fun fs => (f .moveIn).how = .failed ∧ fs .path = none ∧ fs .old = some a)
      (fun fs => Ended env f received a late (fs .path)) := by
  refine triple_perform (fun fs fs' hfs h he => ⟨h, ?_⟩) (fun fs e hfs _ he => ?_)
    (fun fs _ hfs h => ⟨h, hfs.path, hfs.old⟩) fun fs _ hfs h => .lost hs (.inl hfs.path) (.inl h)
  · rw [rename, hfs.staged] at he
    cases he
    exact ⟨by simp, by simpa using hfs.received⟩
  · rw [rename, hfs.staged] at he
    cases he

theorem triple_moveBack (hs : Swaps env f received) (hfailed : (f .moveIn).how = .failed) :
    Triple (fun fs => fs .path = none ∧ fs .old = some a) (atomic f .moveBack (rename .old .path))
      (fun _ fs => Ended env f received a late (fs .path))
      (fun fs => Ended env f received a late (fs .path))
      (fun fs => Ended env f received a (¬FailsLate f) (fs .path)) := by
  have hlost : ∀ {late} (fs : Files β), fs .path = none → (f .moveBack).how ≠ .done →
      Ended env f received a late (fs .path) := fun fs hp h =>
      .lost hs (.inl hp) (.inr ⟨hfailed, h⟩)
  refine triple_perform (fun fs fs' hfs h he => ?_) (fun fs e hfs _ he => ?_)
    (fun fs _ hfs h => hlost fs hfs.1 (by simp [h])) fun fs _ hfs h => hlost fs hfs.1 (by simp [h])
  · rw [rename, hfs.2] at he
    cases he
    have hp : update (update fs .path (some a)) .old none .path = some a := by simp
    rw [hp]
    exact .old fun _ => ⟨hfailed, h⟩
  · rw [rename, hfs.2] at he
    cases he

theorem triple_fileExists {k : Bool → FileM β Unit} {R : Unit → Files β → Prop}
    (hP : ∀ fs, P fs → fs .path = some a) (h : Triple P (k true) R F C) :
    Triple P (fileExists .path >>= k) R F C := by
  intro fs hfs
  have hk : (fileExists .path >>= k) fs = k true fs := by
    show k (fs .path).isSome fs = k true fs
    rw [hP fs hfs]
    rfl
  rw [hk]
  exact h fs hfs

theorem triple_installSnapshot (hb : env.newOf received = some b)
    (hdone : ∀ o ∈ [FileOp.validate, .copy, .drain], (f o).how = .done)
    (hstaged : (f .removeStaged).how ≠ .crashed) :
    Triple (Staged a b) (installSnapshot env f)
      (fun _ fs => (Swaps env f received ∧ (f .moveIn).how = .done ∧
        (f .removeAside).how ≠ .crashed) ∧ Placed b fs)
      (fun fs => Ended env f received a late (fs .path))
      (fun fs => Ended env f received a (¬FailsLate f) (fs .path)) := by
  have hold : Triple (Staged a b) (atomic f .removeOld (removeFile .old))
      (fun _ fs => (f .removeOld).how ≠ .crashed ∧ Staged a b fs)
      (fun fs => (f .removeOld).how ≠ .crashed ∧ Staged a b fs)
      (fun fs => Ended env f received a (¬FailsLate f) (fs .path)) := by
    refine triple_ignored (fun fs fs' hfs he => ?_) fun fs hfs h => ?_
    · exact ⟨(removeFile_ne (by decide) he).trans hfs.path,
        (removeFile_ne (by decide) he).trans hfs.received,
        (removeFile_ne (by decide) he).trans hfs.staged⟩
    · rw [hfs.path]
      exact .old fun hs => absurd h (hs.2.2 _ (by decide))
  refine triple_bind (triple_format hb) fun _ => triple_given fun hformat =>
    triple_given fun hstore =>
    triple_ignore hold fun _ => triple_given fun hremoveOld =>
    triple_fileExists (fun _ h => h.path) <| triple_bind triple_moveAside fun _ =>
      triple_given fun haside => ?_
  have hs : Swaps env f received := by
    refine ⟨by rw [hb, Option.any_some, hstore], ?_, ?_⟩
    · simp only [List.forall_mem_cons] at hdone ⊢
      exact ⟨hdone.1, hdone.2.1, hdone.2.2.1, hformat, haside, nofun⟩
    · simp only [List.forall_mem_cons]
      exact ⟨hstaged, hremoveOld, nofun⟩
  refine triple_try (triple_moveIn hs) (fun _ => triple_given fun hmoved => ?_)
    fun e => triple_given fun hfailed => ?_
  · refine triple_ignore (triple_ignored (Placed.remove (by decide) (by decide)) fun fs hfs h => ?_)
      fun _ => triple_given fun haside => triple_pure fun _ h => ⟨⟨hs, hmoved, haside⟩, h⟩
    exact hfs.ended hb hs hmoved (not_failsLate (by decide) h)
  · exact triple_ignore (triple_moveBack hs hfailed) fun _ => triple_fail fun _ h => h

theorem openStore_eq {fs fs' : Files β} (h : openStore env fs = .ok fs') :
    (∀ n ≠ .path, fs' n = fs n) ∧
    (fs' .path = fs .path ∨ fs .path = none ∧ fs' .path = some env.fresh) := by
  unfold openStore at h
  cases h
  by_cases hn : fs .path = none
  · rw [if_pos hn]
    exact ⟨fun n hne => update_of_ne hne _ _, .inr ⟨hn, update_self ..⟩⟩
  · rw [if_neg hn]
    exact ⟨fun _ _ => rfl, .inl rfl⟩

theorem triple_reopen (hb : env.newOf received = some b) (hs : Swaps env f received)
    (hmoved : (f .moveIn).how = .done) (hlate : (f .reopen).how = .failed → late) :
    Triple (Placed b) (atomic f .reopen (openStore env))
      (fun _ fs => (f .reopen).how = .done ∧ Placed b fs)
      (fun fs => Ended env f received a late (fs .path))
      (fun fs => Ended env f received a (¬FailsLate f) (fs .path)) := by
  refine triple_perform (fun fs fs' hfs h he => ⟨h, ?_⟩) (fun fs e _ _ he => by cases he)
    (fun fs _ hfs h => hfs.ended hb hs hmoved (hlate h)) fun fs _ hfs h => hfs.ended hb hs hmoved ?_
  · obtain ⟨hother, hp | ⟨hp, -⟩⟩ := openStore_eq he
    · exact ⟨hp.trans hfs.path, (hother _ (by decide)).trans hfs.received⟩
    · rw [hfs.path] at hp
      cases hp
  · rintro ⟨-, ⟨hr, -⟩ | ⟨hr, -⟩⟩ <;> simp [h] at hr

theorem triple_reopenAfterError (hlate : late → (f .reopen).how = .failed) :
    Triple (fun fs => Ended env f received a late (fs .path))
      (atomic f .reopenAfterError (openStore env))
      (fun _ fs => (f .reopenAfterError).how ≠ .crashed ∧ Ended env f received a late (fs .path))
      (fun fs => (f .reopenAfterError).how ≠ .crashed ∧ Ended env f received a late (fs .path))
      (fun fs => Ended env f received a (¬FailsLate f) (fs .path)) := by
  refine triple_ignored (fun fs fs' hfs he => ?_) fun fs hfs h => hfs.mono fun hr => ?_
  · obtain ⟨-, hp | ⟨hp, hp'⟩⟩ := openStore_eq he
    · rwa [hp]
    · rw [hp] at hfs
      rw [hp']
      obtain ⟨hs, hcut⟩ := hfs.none
      exact .lost hs (.inr rfl) hcut
  · rintro ⟨-, ⟨-, hn⟩ | ⟨hr', -⟩⟩
    · exact hn h
    · rw [hlate hr] at hr'
      cases hr'

theorem triple_slotInstall (hb : env.newOf received = some b)
    (hdone : ∀ o ∈ [FileOp.validate, .copy], (f o).how = .done)
    (hstaged : (f .removeStaged).how ≠ .crashed) :
    Triple (Staged a b) (slotInstall env f)
      (fun _ fs => (Swaps env f received ∧ (f .moveIn).how = .done ∧
        (f .removeAside).how ≠ .crashed ∧ (f .reopen).how = .done) ∧ Placed b fs)
      (fun fs => Ended env f received a
        (((f .removeAside).how ≠ .crashed ∧ (f .reopen).how = .failed) ∧
        (f .reopenAfterError).how ≠ .crashed) (fs .path))
      (fun fs => Ended env f received a (¬FailsLate f) (fs .path)) := by
  have hdrain : Triple (Staged a b) (atomic f .drain .ok)
      (fun _ fs => (f .drain).how = .done ∧ Staged a b fs)
      (fun fs => Ended env f received a
        (((f .removeAside).how ≠ .crashed ∧ (f .reopen).how = .failed) ∧
        (f .reopenAfterError).how ≠ .crashed) (fs .path))
      (fun fs => Ended env f received a (¬FailsLate f) (fs .path)) := by
    refine triple_needed (by decide) (fun _ h => h.path) (fun _ _ => rfl)
      (fun fs fs' hfs he => ?_) nofun
    cases he
    exact hfs
  refine triple_bind hdrain fun _ => triple_given fun hdrain => ?_
  have hbefore : ∀ o ∈ [FileOp.validate, .copy, .drain], (f o).how = .done := by
    simp only [List.forall_mem_cons] at hdone ⊢
    exact ⟨hdone.1, hdone.2.1, hdrain, nofun⟩
  refine triple_try (Q := fun _ fs => (Swaps env f received ∧ (f .moveIn).how = .done ∧
      (f .removeAside).how ≠ .crashed ∧ (f .reopen).how = .done) ∧ Placed b fs)
    (F := fun fs => Ended env f received a
      ((f .removeAside).how ≠ .crashed ∧ (f .reopen).how = .failed) (fs .path))
    (triple_bind (triple_installSnapshot hb hbefore hstaged) fun _ =>
      triple_given fun ⟨hs, hmoved, haside⟩ => ?_)
    (fun _ => triple_pure fun _ h => h) fun e => ?_
  · exact triple_mono (triple_reopen hb hs hmoved fun h => ⟨haside, h⟩) fun _ _ h =>
      ⟨⟨hs, hmoved, haside, h.1⟩, h.2⟩
  · exact triple_ignore (triple_reopenAfterError fun h => h.2) fun _ => triple_given fun hafter =>
      triple_fail fun _ h => h.mono fun hl => ⟨hl, hafter⟩

theorem triple_validate :
    Triple (fun fs => fs .path = some a ∧ fs .received = received)
      (atomic f .validate (validate env))
      (fun _ fs => (f .validate).how = .done ∧ env.newOf received ≠ none ∧ fs .path = some a ∧
        fs .received = env.newOf received)
      (fun fs => Ended env f received a late (fs .path))
      (fun fs => Ended env f received a (¬FailsLate f) (fs .path)) := by
  refine triple_needed (by decide) (fun _ h => h.1) (fun _ _ => rfl) (fun fs fs' hfs he => ?_)
    fun fs e hfs he hs => ?_
  · unfold validate at he
    cases hr : fs .received with
    | none =>
      rw [hr] at he
      cases he
    | some x =>
      rw [hr] at he
      obtain ⟨y, hy, he⟩ := bind_eq_ok.mp he
      cases he
      have hnew : env.newOf received = some y := by
        simp [StoreFiles.newOf, ← hfs.2, hr, hy, Except.toOption]
      exact ⟨by simp [hnew], by simpa using hfs.1, by simp [hnew]⟩
  · obtain ⟨y, hy⟩ := hs.exists_new
    obtain ⟨x, hx, hy⟩ := Option.bind_eq_some_iff.mp hy
    unfold validate at he
    rw [hfs.2, hx] at he
    dsimp only at he
    cases hc : env.check x with
    | error _ =>
      rw [hc] at hy
      cases hy
    | ok _ =>
      rw [hc] at he
      cases he

theorem triple_removeStaged :
    Triple (fun fs => fs .path = some a ∧ fs .received = some b)
      (atomic f .removeStaged (removeFile .staged))
      (fun _ fs => (f .removeStaged).how ≠ .crashed ∧ fs .path = some a ∧ fs .received = some b)
      (fun fs => (f .removeStaged).how ≠ .crashed ∧ fs .path = some a ∧ fs .received = some b)
      (fun fs => Ended env f received a (¬FailsLate f) (fs .path)) := by
  refine triple_ignored (fun fs fs' hfs he => ?_) fun fs hfs h => ?_
  · exact ⟨(removeFile_ne (by decide) he).trans hfs.1, (removeFile_ne (by decide) he).trans hfs.2⟩
  · rw [hfs.1]
    exact .old fun hs => absurd h (hs.2.2 _ (by decide))

theorem triple_copy : Triple (fun fs => fs .path = some a ∧ fs .received = some b)
    (perform f .copy (copyFile .received .staged) fun t fs => update fs .staged t)
    (fun _ fs => (f .copy).how = .done ∧ Staged a b fs)
    (fun fs => Ended env f received a late (fs .path))
    (fun fs => Ended env f received a (¬FailsLate f) (fs .path)) := by
  refine triple_needed (by decide) (fun _ h => h.1) (fun t fs => update_of_ne (by decide) _ _)
    (fun fs fs' hfs he => ?_) fun fs e hfs he => ?_
  · rw [copyFile, hfs.2] at he
    cases he
    exact ⟨by simpa using hfs.1, by simpa using hfs.2, by simp⟩
  · rw [copyFile, hfs.2] at he
    cases he

theorem triple_promote (hb : env.newOf received = some b) (hs : Swaps env f received)
    (hmoved : (f .moveIn).how = .done) (hreopen : (f .reopen).how = .done) :
    Triple (Placed b) (atomic f .promote (removeFile .received))
      (fun _ fs => Ended env f received a (¬FailsLate f) (fs .path))
      (fun fs => Ended env f received a ((f .promote).how = .failed) (fs .path))
      (fun fs => Ended env f received a (¬FailsLate f) (fs .path)) := by
  have hnot : (f .promote).how ≠ .failed → ¬FailsLate f := by
    rintro hp ⟨-, ⟨hr, -⟩ | ⟨-, hp'⟩⟩
    · rw [hreopen] at hr
      cases hr
    · exact hp hp'
  refine triple_perform (fun fs fs' hfs h he => ?_) (fun fs e hfs _ he => ?_)
    (fun fs _ hfs h => hfs.ended hb hs hmoved h)
    fun fs _ hfs h => hfs.ended hb hs hmoved (hnot (by simp [h]))
  · rw [removeFile_ne (by decide) he]
    exact hfs.ended hb hs hmoved (hnot (by simp [h]))
  · rw [removeFile, hfs.received] at he
    cases he

variable (env f received a) in
theorem triple_installWith :
    Triple (fun fs => fs .path = some a ∧ fs .received = received) (installWith env f)
      (fun _ fs => Ended env f received a (¬FailsLate f) (fs .path))
      (fun fs => Ended env f received a (FailsLate f) (fs .path))
      (fun fs => Ended env f received a (¬FailsLate f) (fs .path)) := by
  have hcleanup : (f .cleanup).how = .crashed → ¬FailsLate f := not_failsLate (by decide)
  have hdrop : (f .dropStaged).how = .crashed → ¬FailsLate f := not_failsLate (by decide)
  refine triple_try triple_validate (fun _ => triple_given fun hvalidate => triple_given fun hnew =>
    ?_) fun e => triple_ignore (triple_settled False (by decide) hcleanup) fun _ =>
      triple_given fun _ => triple_fail fun _ h => h.mono False.elim
  obtain ⟨b, hb⟩ := Option.ne_none_iff_exists'.mp hnew
  rw [hb]
  refine triple_ignore triple_removeStaged fun _ => triple_given fun hstaged =>
    triple_try (triple_bind triple_copy fun _ => triple_given fun hcopy => triple_slotInstall hb
      (by simp only [List.forall_mem_cons]; exact ⟨hvalidate, hcopy, nofun⟩) hstaged)
    (fun _ => triple_given fun ⟨hs, hmoved, haside, hreopen⟩ => ?_) fun e => ?_
  · refine triple_ignore (triple_ignored (Placed.remove (by decide) (by decide)) fun fs hfs h =>
      hfs.ended hb hs hmoved (hdrop h)) fun _ => triple_given fun hdropped => ?_
    refine triple_try (triple_promote hb hs hmoved hreopen)
      (fun _ => triple_ignore (triple_settled _ (by decide) hcleanup) fun _ => triple_given fun _ =>
        triple_pure fun _ h => h)
      fun e => triple_ignore (triple_settled _ (by decide) hcleanup) fun _ =>
        triple_given fun hcleaned =>
        triple_fail fun _ h => h.mono fun hp => ⟨?_, .inr ⟨hreopen, hp⟩⟩
    simp only [List.forall_mem_cons]
    exact ⟨haside, hdropped, hcleaned, nofun⟩
  · refine triple_ignore (triple_settled _ (by decide) hdrop) fun _ => triple_given fun hdropped =>
      triple_ignore (triple_settled _ (by decide) hcleanup) fun _ => triple_given fun hcleaned =>
        triple_fail fun _ h => h.mono fun hl => ⟨?_, .inl ⟨hl.1.2, hl.2⟩⟩
    simp only [List.forall_mem_cons]
    exact ⟨hl.1.1, hdropped, hcleaned, nofun⟩

end

section
variable {β : Type} (env : StoreFiles β) (f : FileOp → Outcome β)

def ended (x : FileM β Unit) (fs : Files β) : How :=
  match x fs with
  | .ok _ _ => .done
  | .error (.fail _) _ => .failed
  | .error .crash _ => .crashed

def arrived (fs : Files β) (received : Option β) : Files β := update fs .received received

/-- The store path holds the old store or the new one, the old one after a failure. -/
def Survives (fs : Files β) (received : Option β) : Prop :=
  let fs' := (installWith env f).final (arrived fs received)
  (fs' .path = fs .path ∨ env.newOf received ≠ none ∧ fs' .path = env.newOf received) ∧
    (ended (installWith env f) (arrived fs received) = .failed → fs' .path = fs .path)

inductive DirEvent (β : Type)
  | install (received : Option β) (f : FileOp → Outcome β)
  | write (c : β)

def dirStep (fs : Files β) : DirEvent β → Option (Files β)
  | .install received f => some ((installWith env f).final (arrived fs received))
  | .write c =>
    match fs .path with
    | none => none
    | some _ => some (update fs .path (some c))

def DirOk (_ : Files β) : DirEvent β → Prop
  | .install received f => Unbroken env f received
  | .write _ => True

variable {env f} {fs : Files β} {received : Option β} {a : β}

theorem install_ends (env : StoreFiles β) (f : FileOp → Outcome β) (received : Option β)
    (h : fs .path = some a) :
    Ended env f received a (ended (installWith env f) (arrived fs received) = .failed ↔ FailsLate f)
      ((installWith env f).final (arrived fs received) .path) := by
  have htriple := triple_installWith env f received a (arrived fs received)
    ⟨by simpa [arrived] using h, update_self ..⟩
  unfold final ended
  cases hrun : installWith env f (arrived fs received) with
  | ok u fs' =>
    rw [hrun] at htriple
    exact Ended.mono (fun hl => by simp [hl]) htriple
  | error e fs' =>
    rw [hrun] at htriple
    cases e with
    | crash => exact Ended.mono (fun hl => by simp [hl]) htriple
    | fail e => exact Ended.mono (fun hl => by simp [hl]) htriple

theorem Unbroken.survives (h : fs .path = some a) (hu : Unbroken env f received) :
    Survives env f fs received := by
  have hends := install_ends env f received h
  rw [Survives, h]
  generalize (installWith env f).final (arrived fs received) .path = p at hends ⊢
  cases hends with
  | old _ => exact ⟨.inl rfl, fun _ => rfl⟩
  | new hs hmoved hlate =>
    obtain ⟨b, hb⟩ := hs.exists_new
    exact ⟨.inr ⟨by simp [hb], rfl⟩, fun hf => absurd (hlate.mp hf) ((hu hs).2.2 hmoved)⟩
  | lost hs _ hcut =>
    rcases hcut with hc | ⟨hf, hb⟩
    · exact absurd hc (hu hs).1
    · exact absurd ((hu hs).2.1 hf) hb

theorem Survives.unbroken (h : fs .path = some a) (hs : Survives env f fs received)
    (hnew : env.newOf received ≠ fs .path) (hfresh : some env.fresh ≠ fs .path)
    (hother : some env.fresh ≠ env.newOf received) : Unbroken env f received := by
  have hends := install_ends env f received h
  rw [Survives, h] at hs
  rw [h] at hnew hfresh
  obtain ⟨hpath, hfailed⟩ := hs
  generalize (installWith env f).final (arrived fs received) .path = p at hends hpath hfailed
  cases hends with
  | old hundone =>
    intro hs
    obtain ⟨hf, hb⟩ := hundone hs
    exact ⟨by simp [hf], fun _ => hb, fun hm => by simp [hf] at hm⟩
  | new _ hmoved hlate =>
    intro _
    exact ⟨by simp [hmoved], by simp [hmoved], fun _ hl => hnew (hfailed (hlate.mpr hl))⟩
  | lost _ hp _ =>
    -- the path is missing or holds an empty store: neither of the two
    exfalso
    rcases hpath with rfl | ⟨hv, rfl⟩ <;> rcases hp with hp | hp
    · cases hp
    · exact hfresh hp.symm
    · exact hv hp
    · exact hother hp.symm

theorem reach_path {fs₀ : Files β} (h₀ : fs₀ .path ≠ none)
    (h : Reach (dirStep env) (DirOk env) fs₀ fs) : ∃ a, fs .path = some a := by
  rw [← Option.ne_none_iff_exists']
  refine Reach.inv (P := fun fs : Files β => fs .path ≠ none) h h₀ ?_
  intro s t e hs hok hstep
  obtain ⟨a, ha⟩ := Option.ne_none_iff_exists'.mp hs
  cases e with
  | install received f =>
    cases hstep
    rcases (Unbroken.survives ha hok).1 with he | ⟨hv, he⟩
    · rw [he]
      exact hs
    · rw [he]
      exact hv
  | write c =>
    simp only [dirStep, ha] at hstep
    cases hstep
    simp

/-- From any files that unbroken installs and writes lead to, an install leaves the old store or
the new one, and the old one when it fails, if it is unbroken; and only then, when the stores can
be told apart. -/
theorem install_survives_iff (fs₀ fs : Files β) (h₀ : fs₀ .path ≠ none)
    (h : Reach (dirStep env) (DirOk env) fs₀ fs) (f : FileOp → Outcome β) (received : Option β) :
    (Unbroken env f received → Survives env f fs received) ∧
      (env.newOf received ≠ fs .path → some env.fresh ≠ fs .path →
        some env.fresh ≠ env.newOf received →
        (Survives env f fs received ↔ Unbroken env f received)) := by
  obtain ⟨a, ha⟩ := reach_path h₀ h
  exact ⟨Unbroken.survives ha, fun hnew hfresh hother =>
    ⟨fun hs => hs.unbroken ha hnew hfresh hother, Unbroken.survives ha⟩⟩

end

def numbered : StoreFiles Nat := ⟨.ok, fun _ => .ok (some 2), 0⟩

def storeOne : Files Nat := update (fun _ => none) .path (some 1)

def except (o : FileOp) (x : Outcome Nat) : FileOp → Outcome Nat :=
  fun p => if p = o then x else .ok

theorem install_survives_after_cut :
    Survives numbered (except .moveIn (.fail "" none))
      ((installWith numbered (except .copy (.crash (some 7)))).final (arrived storeOne (some 2)))
      (some 2) := by
  have hcut : DirOk numbered storeOne (.install (some 2) (except .copy (.crash (some 7)))) := by
    show Unbroken _ _ _
    decide
  refine (install_survives_iff storeOne _ (by decide) (.next .start hcut rfl) _ (some 2)).1 ?_
  decide

/-- A crash between the two renames: nothing is left at the store path. -/
theorem install_cut_between_renames :
    (installWith numbered (except .moveIn (.crash none))).final (arrived storeOne (some 2)) .path =
      none ∧ ¬ Survives numbered (except .moveIn (.crash none)) storeOne (some 2) := by
  have hnone : (installWith numbered (except .moveIn (.crash none))).final
      (arrived storeOne (some 2)) .path = none := by decide
  refine ⟨hnone, ?_⟩
  rintro ⟨he | ⟨hv, he⟩, _⟩
  · rw [hnone] at he
    exact absurd he (by decide)
  · rw [hnone] at he
    exact hv he.symm

end MemoryGraph.Server
