import MemoryGraph.Backup.Retention
import MemoryGraph.Server.SnapshotDir
import MemoryGraph.Lib.Fallible

/-! Verified restores; `latest` goes from the newest committed backup down past damaged ones. -/

namespace MemoryGraph.Backup
open Lib
open MemoryGraph.Server (Sidecar schemaVersion)

def upgradableSchemaVersions : List Nat := [9, 10, 11]

structure RestoreChecks where
  extractorsHash : String
  allowExtractorMismatch : Bool
  minFreeDisk : Nat

structure Target where
  store : String
  dir : String

def restoreTmp (t : Target) : String := t.store ++ ".restore.tmp"

structure Files where
  store : Option (List UInt8)
  tmp : Option (List UInt8)
deriving DecidableEq, Repr

/-- What the sink, the disk and the store library do while one backup is tried. -/
structure Fetch where
  getMeta : Except IoError (List UInt8)
  free : Option Nat
  create : Except IoError Unit
  -- what was written to the staging file, and how the download ended
  getData : List UInt8 × Except IoError Unit
  sync : Except String Unit
  detectFormat : List UInt8 → Except StoreError (Option Nat)
  clearRaftState : List UInt8 → Except StoreError (List UInt8)
  rename : Except IoError Unit

structure Attempt where
  err : StoreError
  next : Bool
deriving DecidableEq, Repr

def Attempt.stop (err : StoreError) : Attempt := ⟨err, false⟩

def Attempt.skip (err : StoreError) : Attempt := ⟨err, true⟩

def refuse (msg : String) : StoreError := .rejected ("--restore: " ++ msg)

def checkVersions (side : Sidecar) (c : RestoreChecks) : Except StoreError Unit := do
  failIf (side.storeFormatVersion ≠ schemaVersion ∧
    side.storeFormatVersion ∉ upgradableSchemaVersions)
    (refuse ("the backup is store format " ++ toString side.storeFormatVersion ++
      " and this binary reads format " ++ toString schemaVersion ++ " (no override)"))
  failIf (side.extractorsHash ≠ c.extractorsHash ∧ c.allowExtractorMismatch = false)
    (refuse ("the backup was made with extractors " ++ side.extractorsHash ++
      " and this binary has " ++ c.extractorsHash ++
      "; restore with the same build, or pass --restore-allow-extractor-mismatch " ++
      "(files re-extract on their next index)"))

def checkDisk (side : Sidecar) (c : RestoreChecks) (t : Target) :
    Option Nat → Except StoreError Unit
  | none => return ()
  | some free =>
    let need := satAdd c.minFreeDisk side.size
    failIf (free < need) (StoreError.storage ("disk full: --restore needs " ++ toString need ++
      " bytes free in `" ++ t.dir ++ "` (the backup's " ++ toString side.size ++
      " plus --min-free-disk " ++ toString c.minFreeDisk ++ "), and " ++ toString free ++ " are"))

section
variable (parseSidecar : List UInt8 → Except String Sidecar) (sha256 : List UInt8 → String)

def fetchMeta (stem : Key) (a : Fetch) : Except Attempt Sidecar :=
  let metaKey := String.ofList (stem ++ metaExt)
  match a.getMeta with
  | .ok buf => (parseSidecar buf).mapError fun e =>
    .skip (refuse ("`" ++ metaKey ++ "` is not a snapshot meta: " ++ e))
  | .error e =>
    if e.kind = .notFound then
      .error (.skip (refuse ("`" ++ metaKey ++ "` does not exist, so `" ++
        String.ofList (stem ++ dataExt) ++
        "` is not a committed backup (an upload that never finished)")))
    else .error (.stop (refuse ("reading `" ++ metaKey ++ "`: " ++ e.text)))

def accept (c : RestoreChecks) (t : Target) (stem : Key) (a : Fetch) : Except Attempt Sidecar := do
  let side ← fetchMeta parseSidecar stem a
  (checkVersions side c).mapError Attempt.stop
  (checkDisk side c t a.free).mapError Attempt.stop
  return side

def verify (stem : Key) (a : Fetch) (side : Sidecar) : Except Attempt Unit :=
  let dataKey := String.ofList (stem ++ dataExt)
  match a.getData.2, a.sync with
  | .error e, _ =>
    .error ⟨refuse ("downloading `" ++ dataKey ++ "`: " ++ e.text), e.kind = .notFound⟩
  | .ok _, .error e => .error (.stop (refuse ("downloading `" ++ dataKey ++ "`: " ++ e)))
  | .ok _, .ok _ =>
    let n := a.getData.1.length
    let sha := sha256 a.getData.1
    failIf (n ≠ side.size ∨ sha ≠ side.sha256)
      (Attempt.skip (refuse ("`" ++ dataKey ++ "` is " ++ toString n ++
      " bytes with sha256 " ++ sha ++ ", but its meta records " ++ toString side.size ++
      " bytes with sha256 " ++ side.sha256 ++ ": the backup is damaged; refusing it")))

end

def checkStore (t : Target) (a : Fetch) (staged : List UInt8) : Except StoreError (List UInt8) := do
  match ← a.detectFormat staged with
  | some _ => a.clearRaftState staged
  | none => .error (.rejected ("`" ++ restoreTmp t ++ "` is not a memory-graph store file"))

def placeRestore (t : Target) (a : Fetch) (staged : List UInt8) (files : Files) :
    Files × Except StoreError Unit :=
  match checkStore t a staged with
  | .error e => ({ files with tmp := none }, .error e)
  | .ok stripped =>
    match a.rename with
    | .error e =>
      ({ files with tmp := none }, .error (.storage ("placing `" ++ t.store ++ "`: " ++ e.text)))
    | .ok _ => (⟨some stripped, none⟩, .ok ())

section
variable (parseSidecar : List UInt8 → Except String Sidecar) (sha256 : List UInt8 → String)
  (c : RestoreChecks) (t : Target)

def restoreOne (a : Fetch) (stem : Key) (files : Files) : Files × Except Attempt Sidecar :=
  match accept parseSidecar c t stem a with
  | .error e => (files, .error e)
  | .ok side =>
    match a.create with
    | .error e =>
      ({ files with tmp := none },
        .error (.stop (refuse ("creating `" ++ restoreTmp t ++ "`: " ++ e.text))))
    | .ok _ =>
      let staged : Files := { files with tmp := some a.getData.1 }
      match verify sha256 stem a side with
      | .error e => ({ staged with tmp := none }, .error e)
      | .ok _ =>
        match placeRestore t a a.getData.1 staged with
        | (files, .ok _) => (files, .ok side)
        | (files, .error e) => (files, .error (.stop e))

/-- The loop of `latest`; `fetch n stem` is what happens when `stem` is the `n`th backup tried. -/
def restoreLatest (final : Option StoreError → StoreError) (fetch : Nat → Key → Fetch) (n : Nat)
    (stems : List Key) (files : Files) (last : Option StoreError) :
    Files × Except StoreError Sidecar :=
  match stems with
  | [] => (files, .error (final last))
  | stem :: stems =>
    match restoreOne parseSidecar sha256 c t (fetch n stem) stem files with
    | (files, .ok side) => (files, .ok side)
    | (files, .error e) =>
      if e.next then restoreLatest final fetch (n + 1) stems files (some e.err)
        else (files, .error e.err)

def noneVerifies (display : StoreError → String) (describe : String) (dirKey : Key) :
    Option StoreError → StoreError
  | some e => refuse ("no committed backup under " ++ describe ++ "/" ++ String.ofList dirKey ++
      " verifies; the newest failure: " ++ display e)
  | none =>
      refuse ("no committed backup (no snap-*.meta) under " ++ describe ++ "/" ++
        String.ofList dirKey)

structure Listing (dirKey : Key) where
  objects : List ObjectInfo
  under : ∀ o ∈ objects, dirKey <+: o.key

def committedMetas (std : Sorting) {dirKey : Key} (l : Listing dirKey) : List Committed :=
  std.sort newer ((l.objects.filter fun o =>
    metaExt.isSuffixOf o.key && !(o.key.drop dirKey.length).contains '/').filterMap
    fun o => (parseStem o.key).map fun (t, i) => (i, t, o.key))

def stemOf (m : Committed) : Key := (m.2.2.dropSuffix? metaExt).getD []

def committedStems (std : Sorting) {dirKey : Key} (l : Listing dirKey) : List Key :=
  (committedMetas std l).map stemOf

def restoreFromSink (std : Sorting) (display : StoreError → String) (describe : String)
    (dirKey name : Key) (list : Except IoError (Listing dirKey)) (fetch : Nat → Key → Fetch)
    (files : Files) : Files × Except StoreError Sidecar :=
  if name ≠ "latest".toList then
    match (name.dropSuffix? dataExt).filter fun s => (parseStem (s ++ dataExt)).isSome with
    | none =>
      (files, .error (refuse
        ("`" ++ String.ofList name ++ "`: name a backup (`snap-<term>-<index>.redb`) or `latest`")))
    | some stem =>
      match restoreOne parseSidecar sha256 c t (fetch 0 (dirKey ++ stem))
        (dirKey ++ stem) files with
      | (files, .ok side) => (files, .ok side)
      | (files, .error e) => (files, .error e.err)
  else
    match list with
    | .error e => (files, .error (refuse ("listing `" ++ describe ++ "`: " ++ e.text)))
    | .ok l => restoreLatest parseSidecar sha256 c t (noneVerifies display describe dirKey) fetch 0
        (committedStems std l) files none

end

section
variable (parseSidecar : List UInt8 → Except String Sidecar) (sha256 : List UInt8 → String)
  (c : RestoreChecks) (t : Target)

/-- The sidecar is missing or cannot be parsed, or the data is missing or another's. -/
def Damaged (a : Fetch) : Prop :=
  (∃ e, a.getMeta = .error e ∧ e.kind = .notFound) ∨
  ∃ buf, a.getMeta = .ok buf ∧ ((∃ e, parseSidecar buf = .error e) ∨
    ∃ side, parseSidecar buf = .ok side ∧ ((∃ e, a.getData.2 = .error e ∧ e.kind = .notFound) ∨
      (a.getData.2 = .ok () ∧ (a.getData.1.length ≠ side.size ∨ sha256 a.getData.1 ≠ side.sha256))))

/-- The sidecar cannot be fetched, or it is of another version, the disk is too full or cannot be
written, or the data cannot be fetched. -/
def Blocked (a : Fetch) : Prop :=
  (∃ e, a.getMeta = .error e ∧ e.kind ≠ .notFound) ∨
  ∃ buf side, a.getMeta = .ok buf ∧ parseSidecar buf = .ok side ∧
    ((∃ e, checkVersions side c = .error e) ∨
      (∃ free ∈ a.free, free < satAdd c.minFreeDisk side.size) ∨ (∃ e, a.create = .error e) ∨
    (∃ e, a.getData.2 = .error e ∧ e.kind ≠ .notFound) ∨
    (a.getData.2 = .ok () ∧ ∃ e, a.sync = .error e))

def Verified (a : Fetch) (side : Sidecar) : Prop :=
  ∃ buf, a.getMeta = .ok buf ∧ parseSidecar buf = .ok side ∧ checkVersions side c = .ok () ∧
    a.getData.2 = .ok () ∧ a.getData.1.length = side.size ∧ sha256 a.getData.1 = side.sha256

def Placed (a : Fetch) (files : Files) : Prop :=
  ∃ stripped, a.clearRaftState a.getData.1 = .ok stripped ∧ files = ⟨some stripped, none⟩

variable {parseSidecar sha256 c t} {a : Fetch} {stem : Key} {files files' : Files}
  {side : Sidecar} {e : Attempt}

theorem fetchMeta_ok : fetchMeta parseSidecar stem a = .ok side ↔ ∃ buf, a.getMeta = .ok buf ∧
    parseSidecar buf = .ok side := by
  unfold fetchMeta
  cases a.getMeta with
  | error x =>
    dsimp only
    split_ifs <;> simp
  | ok buf => simp [mapError_eq_ok]

theorem fetchMeta_error (h : fetchMeta parseSidecar stem a = .error e) :
    (e.next = true → Damaged parseSidecar sha256 a) ∧
      ((∃ x, a.getMeta = .error x ∧ x.kind ≠ .notFound) → e.next = false) := by
  unfold fetchMeta at h
  cases hmeta : a.getMeta with
  | error x =>
    rw [hmeta] at h
    dsimp only at h
    split_ifs at h with hkind
    · refine ⟨fun _ => .inl ⟨x, hmeta, hkind⟩, fun ⟨y, hy, hne⟩ => ?_⟩
      rw [Except.error.inj hy] at hkind
      exact absurd hkind hne
    · rw [← Except.error.inj h]
      exact ⟨nofun, fun _ => rfl⟩
  | ok buf =>
    rw [hmeta] at h
    obtain ⟨d, hd, -⟩ := mapError_eq_error.mp h
    exact ⟨fun _ => .inr ⟨buf, hmeta, .inl ⟨d, hd⟩⟩, fun ⟨_, hx, _⟩ => absurd hx nofun⟩

theorem accept_ok : accept parseSidecar c t stem a = .ok side ↔
    fetchMeta parseSidecar stem a = .ok side ∧ checkVersions side c = .ok () ∧
    checkDisk side c t a.free = .ok () := by
  rw [accept, bind_eq_ok]
  constructor
  · rintro ⟨s, hs, h⟩
    obtain ⟨_, hversions, h⟩ := bind_eq_ok.mp h
    obtain ⟨_, hdisk, h⟩ := bind_eq_ok.mp h
    cases h
    exact ⟨hs, mapError_eq_ok.mp hversions, mapError_eq_ok.mp hdisk⟩
  · rintro ⟨hs, hversions, hdisk⟩
    refine ⟨side, hs, ?_⟩
    rw [hversions, hdisk]
    rfl

theorem accept_error (h : accept parseSidecar c t stem a = .error e) :
    fetchMeta parseSidecar stem a = .error e ∨ e.next = false := by
  rcases bind_eq_error.mp h with h | ⟨s, -, h⟩
  · exact .inl h
  rcases bind_eq_error.mp h with h | ⟨_, -, h⟩
  · obtain ⟨d, -, rfl⟩ := mapError_eq_error.mp h
    exact .inr rfl
  rcases bind_eq_error.mp h with h | ⟨_, -, h⟩
  · obtain ⟨d, -, rfl⟩ := mapError_eq_error.mp h
    exact .inr rfl
  · exact absurd h nofun

theorem checkDisk_ok (h : checkDisk side c t a.free = .ok ()) {free : Nat} (hfree : free ∈ a.free) :
    ¬free < satAdd c.minFreeDisk side.size := by
  rw [Option.mem_def] at hfree
  rw [hfree] at h
  exact failIf_eq_ok.mp h

theorem verify_ok (h : verify sha256 stem a side = .ok ()) :
    a.getData.2 = .ok () ∧ a.sync = .ok () ∧ a.getData.1.length = side.size ∧
    sha256 a.getData.1 = side.sha256 := by
  unfold verify at h
  dsimp only at h
  split at h
  · exact absurd h nofun
  · exact absurd h nofun
  · next hdata hsync =>
    have := failIf_eq_ok.mp h
    rw [not_or, not_not, not_not] at this
    exact ⟨hdata, hsync, this⟩

theorem verify_error (h : verify sha256 stem a side = .error e) (hnext : e.next = true) :
    (∃ x, a.getData.2 = .error x ∧ x.kind = .notFound) ∨
      (a.getData.2 = .ok () ∧ a.sync = .ok () ∧
        (a.getData.1.length ≠ side.size ∨ sha256 a.getData.1 ≠ side.sha256)) := by
  unfold verify at h
  dsimp only at h
  split at h
  · next x hdata =>
    rw [← Except.error.inj h] at hnext
    exact .inl ⟨x, hdata, of_decide_eq_true hnext⟩
  · rw [← Except.error.inj h] at hnext
    exact absurd hnext nofun
  · next hdata hsync => exact .inr ⟨hdata, hsync, (failIf_eq_error.mp h).1⟩

theorem not_blocked_of_accept (h : accept parseSidecar c t stem a = .ok side)
    (hcreate : a.create = .ok ()) (hdata : ∀ x, a.getData.2 = .error x → x.kind = .notFound)
    (hsync : a.getData.2 = .ok () → a.sync = .ok ()) : ¬Blocked parseSidecar c a := by
  obtain ⟨hmeta, hversions, hdisk⟩ := accept_ok.mp h
  obtain ⟨buf, hbuf, hparse⟩ := fetchMeta_ok.mp hmeta
  rintro (⟨x, hx, -⟩ | ⟨buf', side', hbuf', hparse', hwhy⟩)
  · rw [hbuf] at hx
    exact absurd hx nofun
  · obtain rfl := Except.ok.inj (hbuf.symm.trans hbuf')
    obtain rfl := Except.ok.inj (hparse.symm.trans hparse')
    rcases hwhy with ⟨x, hx⟩ | ⟨free, hfree, hlt⟩ | ⟨x, hx⟩ | ⟨x, hx, hkind⟩ | ⟨hok, x, hx⟩
    · rw [hversions] at hx
      exact absurd hx nofun
    · exact checkDisk_ok hdisk hfree hlt
    · rw [hcreate] at hx
      exact absurd hx nofun
    · exact hkind (hdata x hx)
    · rw [hsync hok] at hx
      exact absurd hx nofun

theorem not_blocked_of_fetchMeta (h : fetchMeta parseSidecar stem a = .error e)
    (hnext : e.next = true) : ¬Blocked parseSidecar c a := by
  rintro (hx | ⟨buf, side, hbuf, hparse, -⟩)
  · have := (@fetchMeta_error parseSidecar (fun _ => "") a stem e h).2 hx
    rw [hnext] at this
    exact absurd this (by decide)
  · rw [fetchMeta_ok.mpr ⟨buf, hbuf, hparse⟩] at h
    exact absurd h nofun

theorem placeRestore_error {x : StoreError} {staged : List UInt8}
    (h : placeRestore t a staged files = (files', .error x)) :
    files' = { files with tmp := none } := by
  unfold placeRestore at h
  split at h
  · exact (Prod.mk.inj h).1.symm
  · split at h
    · exact (Prod.mk.inj h).1.symm
    · exact absurd (Prod.mk.inj h).2 nofun

theorem placeRestore_ok {staged : List UInt8}
    (h : placeRestore t a staged files = (files', .ok ())) :
    ∃ stripped, a.clearRaftState staged = .ok stripped ∧ files' = ⟨some stripped, none⟩ := by
  unfold placeRestore at h
  split at h
  · exact absurd (Prod.mk.inj h).2 nofun
  · next stripped hstore =>
    split at h
    · exact absurd (Prod.mk.inj h).2 nofun
    · refine ⟨stripped, ?_, (Prod.mk.inj h).1.symm⟩
      obtain ⟨format, -, hstore⟩ := bind_eq_ok.mp hstore
      cases format with
      | none => exact absurd hstore nofun
      | some v => exact hstore

theorem restoreOne_error
    (h : restoreOne parseSidecar sha256 c t a stem files = (files', .error e)) :
    files'.store = files.store ∧ (files'.tmp = none ∨ files'.tmp = files.tmp) ∧
      (e.next = true → Damaged parseSidecar sha256 a ∧ ¬Blocked parseSidecar c a) := by
  unfold restoreOne at h
  split at h
  · next e' haccept =>
    obtain ⟨rfl, he⟩ := Prod.mk.inj h
    cases he
    refine ⟨rfl, .inr rfl, fun hnext => ?_⟩
    rcases accept_error haccept with hmeta | hfinal
    · exact ⟨(fetchMeta_error hmeta).1 hnext, not_blocked_of_fetchMeta hmeta hnext⟩
    · rw [hnext] at hfinal
      exact absurd hfinal (by decide)
  · next side haccept =>
    split at h
    · obtain ⟨rfl, he⟩ := Prod.mk.inj h
      rw [← Except.error.inj he]
      exact ⟨rfl, .inl rfl, nofun⟩
    · next hcreate =>
      dsimp only at h
      split at h
      · next e' hverify =>
        obtain ⟨rfl, he⟩ := Prod.mk.inj h
        cases he
        refine ⟨rfl, .inl rfl, fun hnext => ?_⟩
        obtain ⟨buf, hbuf, hparse⟩ := fetchMeta_ok.mp (accept_ok.mp haccept).1
        rcases verify_error hverify hnext with ⟨x, hx, hkind⟩ | ⟨hdata, hsync, hdiffer⟩
        · refine ⟨.inr ⟨buf, hbuf, .inr ⟨side, hparse, .inl ⟨x, hx, hkind⟩⟩⟩,
            not_blocked_of_accept haccept hcreate (fun y hy => ?_) fun hok => ?_⟩
          · rw [← Except.error.inj (hx.symm.trans hy)]
            exact hkind
          · rw [hx] at hok
            exact absurd hok nofun
        · refine ⟨.inr ⟨buf, hbuf, .inr ⟨side, hparse, .inr ⟨hdata, hdiffer⟩⟩⟩,
            not_blocked_of_accept haccept hcreate (fun y hy => ?_) fun _ => hsync⟩
          rw [hdata] at hy
          exact absurd hy nofun
      · split at h
        · exact absurd (Prod.mk.inj h).2 nofun
        · next hplace =>
          obtain ⟨rfl, he⟩ := Prod.mk.inj h
          rw [placeRestore_error hplace, ← Except.error.inj he]
          exact ⟨rfl, .inl rfl, nofun⟩

theorem restoreOne_ok (h : restoreOne parseSidecar sha256 c t a stem files = (files', .ok side)) :
    Verified parseSidecar sha256 c a side ∧ ¬Blocked parseSidecar c a ∧
      Placed a files' := by
  unfold restoreOne at h
  split at h
  · exact absurd (Prod.mk.inj h).2 nofun
  · next side' haccept =>
    split at h
    · exact absurd (Prod.mk.inj h).2 nofun
    · next hcreate =>
      dsimp only at h
      split at h
      · exact absurd (Prod.mk.inj h).2 nofun
      · next hverify =>
        split at h
        · next hplace =>
          obtain ⟨rfl, hside⟩ := Prod.mk.inj h
          cases hside
          obtain ⟨hmeta, hversions, -⟩ := accept_ok.mp haccept
          obtain ⟨buf, hbuf, hparse⟩ := fetchMeta_ok.mp hmeta
          obtain ⟨hdata, hsync, hlen, hsha⟩ := verify_ok hverify
          refine ⟨⟨buf, hbuf, hparse, hversions, hdata, hlen, hsha⟩,
            not_blocked_of_accept haccept hcreate (fun y hy => ?_) fun _ =>
            hsync, placeRestore_ok hplace⟩
          rw [hdata] at hy
          exact absurd hy nofun
        · exact absurd (Prod.mk.inj h).2 nofun

theorem restoreLatest_ok {final : Option StoreError → StoreError} {fetch : Nat → Key → Fetch}
    {n : Nat} {stems : List Key} {last : Option StoreError}
    (h : restoreLatest parseSidecar sha256 c t final fetch n stems files last =
      (files', .ok side)) :
    ∃ i stem, stems[i]? = some stem ∧ Verified parseSidecar sha256 c (fetch (n + i) stem) side ∧
      ¬Blocked parseSidecar c (fetch (n + i) stem) ∧ Placed (fetch (n + i) stem) files' ∧
      ∀ j < i, ∀ above ∈ stems[j]?, Damaged parseSidecar sha256 (fetch (n + j) above) ∧
        ¬Blocked parseSidecar c (fetch (n + j) above) := by
  induction stems generalizing n files last with
  | nil => exact absurd (Prod.mk.inj h).2 nofun
  | cons stem stems ih =>
    rw [restoreLatest] at h
    split at h
    · next files₁ side₁ hone =>
      obtain ⟨rfl, hside⟩ := Prod.mk.inj h
      cases hside
      obtain ⟨hverified, hblocked, hplaced⟩ := restoreOne_ok hone
      exact ⟨0, stem, rfl, hverified, hblocked, hplaced, nofun⟩
    · next files₁ e hone =>
      split_ifs at h with hnext
      · obtain ⟨i, stem', hstem, hverified, hblocked, hplaced, hbefore⟩ := ih h
        rw [Nat.add_assoc, Nat.add_comm 1] at hverified hblocked hplaced
        refine ⟨i + 1, stem', hstem, hverified, hblocked, hplaced, fun j hj above habove => ?_⟩
        cases j with
        | zero =>
          cases habove
          exact (restoreOne_error hone).2.2 hnext
        | succ j =>
          have := hbefore j (by omega) above habove
          rwa [Nat.add_assoc, Nat.add_comm 1] at this
      · exact absurd (Prod.mk.inj h).2 nofun

theorem restoreLatest_error {final : Option StoreError → StoreError} {fetch : Nat → Key → Fetch}
    {n : Nat} {stems : List Key} {last : Option StoreError} {x : StoreError}
    (h : restoreLatest parseSidecar sha256 c t final fetch n stems files last =
      (files', .error x)) :
    files'.store = files.store ∧ (files'.tmp = none ∨ files'.tmp = files.tmp) := by
  induction stems generalizing n files last with
  | nil =>
    rw [← (Prod.mk.inj h).1]
    exact ⟨rfl, .inr rfl⟩
  | cons stem stems ih =>
    rw [restoreLatest] at h
    split at h
    · exact absurd (Prod.mk.inj h).2 nofun
    · next files₁ e hone =>
      obtain ⟨hstore, htmp, -⟩ := restoreOne_error hone
      split_ifs at h
      · obtain ⟨hstore', htmp'⟩ := ih h
        refine ⟨hstore'.trans hstore, ?_⟩
        rcases htmp' with htmp' | htmp'
        · exact .inl htmp'
        · rw [htmp']
          exact htmp
      · rw [← (Prod.mk.inj h).1]
        exact ⟨hstore, htmp⟩

theorem not_damaged_of_verified (h : Verified parseSidecar sha256 c a side) :
    ¬Damaged parseSidecar sha256 a := by
  obtain ⟨buf, hbuf, hparse, -, hdata, hlen, hsha⟩ := h
  rintro (⟨e, he, -⟩ | ⟨buf', hbuf', ⟨e, he⟩ | ⟨side', hparse', ⟨e, he, -⟩ | ⟨-, hdiffer⟩⟩⟩)
  · exact absurd (hbuf.symm.trans he) nofun
  · obtain rfl := Except.ok.inj (hbuf.symm.trans hbuf')
    exact absurd (hparse.symm.trans he) nofun
  · exact absurd (hdata.symm.trans he) nofun
  · obtain rfl := Except.ok.inj (hbuf.symm.trans hbuf')
    obtain rfl := Except.ok.inj (hparse.symm.trans hparse')
    exact hdiffer.elim (fun h => h hlen) fun h => h hsha

end

theorem committedMetas_perm (std : Sorting) {dirKey : Key} (l : Listing dirKey) :
    (committedMetas std l).Perm (committed dirKey l.objects) := by
  have hfilter : (l.objects.filter fun o =>
      metaExt.isSuffixOf o.key && !(o.key.drop dirKey.length).contains '/') =
      (l.objects.filter fun o => child dirKey o.key).filter fun o => metaExt.isSuffixOf o.key := by
    rw [List.filter_filter]
    refine List.filter_congr fun o ho => ?_
    obtain ⟨rest, hrest⟩ := l.under o ho
    congr 1
    rw [child, ← hrest, List.drop_left,
      List.dropPrefix?_append_of_beq rest (beq_self_eq_true dirKey)]
  rw [committedMetas, hfilter]
  exact std.perm_sort newer _

/-- `latest` places the newest backup that verifies, past damaged ones only; a backup that cannot be
judged or taken ends it; and an error leaves the store and nothing staged. -/
theorem restore_latest (std : Sorting) (parseSidecar : List UInt8 → Except String Sidecar)
    (sha256 : List UInt8 → String) (c : RestoreChecks) (t : Target) (display : StoreError → String)
    (describe : String) (dirKey : Key) (list : Except IoError (Listing dirKey))
    (fetch : Nat → Key → Fetch) (files files' : Files) (r : Except StoreError Sidecar)
    (h : restoreFromSink parseSidecar sha256 c t std display describe dirKey "latest".toList
      list fetch files = (files', r)) :
    (∀ e, r = .error e → files'.store = files.store ∧
      (files'.tmp = none ∨ files'.tmp = files.tmp)) ∧
    (∀ side, r = .ok side → ∃ l, list = .ok l) ∧
    ∀ l, list = .ok l → ∃ metas : List Committed, metas.Perm (committed dirKey l.objects) ∧
      metas.Pairwise (fun a b => toLex (b.1, b.2.1) ≤ toLex (a.1, a.2.1)) ∧
      (∀ side, r = .ok side → ∃ i m, metas[i]? = some m ∧
        Verified parseSidecar sha256 c (fetch i (stemOf m)) side ∧
        Placed (fetch i (stemOf m)) files' ∧
        ∀ j < i, ∀ above ∈ metas[j]?, Damaged parseSidecar sha256 (fetch j (stemOf above)) ∧
          ¬Blocked parseSidecar c (fetch j (stemOf above))) ∧
      ∀ i, ∀ m ∈ metas[i]?,
        (∀ j < i, ∀ above ∈ metas[j]?, Damaged parseSidecar sha256 (fetch j (stemOf above))) →
        Blocked parseSidecar c (fetch i (stemOf m)) → ∃ e, r = .error e := by
  unfold restoreFromSink at h
  rw [if_neg (not_not.mpr rfl)] at h
  cases list with
  | error e =>
    cases h
    exact ⟨fun _ _ => ⟨rfl, .inr rfl⟩, fun _ hr => absurd hr nofun, fun _ hl => absurd hl nofun⟩
  | ok l =>
    have hok : ∀ side, r = .ok side → ∃ i m, (committedMetas std l)[i]? = some m ∧
        Verified parseSidecar sha256 c (fetch i (stemOf m)) side ∧
        ¬Blocked parseSidecar c (fetch i (stemOf m)) ∧ Placed (fetch i (stemOf m)) files' ∧
          ∀ j < i, ∀ above ∈ (committedMetas std l)[j]?,
          Damaged parseSidecar sha256 (fetch j (stemOf above)) ∧
          ¬Blocked parseSidecar c (fetch j (stemOf above)) := by
      rintro side rfl
      obtain ⟨i, stem, hstem, hverified, hblocked, hplaced, hbefore⟩ := restoreLatest_ok h
      rw [committedStems, List.getElem?_map] at hstem
      obtain ⟨m, hm, rfl⟩ := Option.map_eq_some_iff.mp hstem
      rw [Nat.zero_add] at hverified hblocked hplaced
      refine ⟨i, m, hm, hverified, hblocked, hplaced, fun j hj above habove => ?_⟩
      have hmem : stemOf above ∈ (committedStems std l)[j]? := by
        rw [committedStems, List.getElem?_map]
        exact Option.mem_map_of_mem _ habove
      have := hbefore j hj (stemOf above) hmem
      rwa [Nat.zero_add] at this
    refine ⟨fun e hr => ?_, fun _ _ => ⟨l, rfl⟩, fun l' hl => ?_⟩
    · subst hr
      exact restoreLatest_error h
    · cases hl
      refine ⟨committedMetas std l, committedMetas_perm std l,
        (std.sorted totalOrder_newer _).imp fun hab => le_of_newer hab, fun side hr =>
        ?_, fun i m hm hbefore hblocked => ?_⟩
      · obtain ⟨i, m, hm, hverified, -, hplaced, hdamaged⟩ := hok side hr
        exact ⟨i, m, hm, hverified, hplaced, hdamaged⟩
      · cases hr : r with
        | error e => exact ⟨e, rfl⟩
        | ok side =>
          -- a success is neither above the blocked backup, nor it, nor below it
          obtain ⟨k, m', hm', hverified, hopen, -, hdamaged⟩ := hok side hr
          rcases Nat.lt_trichotomy k i with hlt | rfl | hlt
          · exact absurd (hbefore k hlt m' hm') (not_damaged_of_verified hverified)
          · obtain rfl := Option.some.inj (hm.symm.trans hm')
            exact absurd hblocked hopen
          · exact absurd hblocked (hdamaged i hlt m hm).2

def twoListed : Listing "c/".toList where
  objects := [⟨"c/snap-1-9.meta".toList, 90⟩, ⟨"c/snap-2-20.meta".toList, 90⟩]
  under := by decide +kernel

def eightThenSeven (i : Nat) (_ : Key) : Fetch where
  getMeta := .ok []
  free := none
  create := .ok ()
  getData := (if i = 0 then [8] else [7], .ok ())
  sync := .ok ()
  detectFormat _ := .ok (some schemaVersion)
  clearRaftState staged := .ok staged
  rename := .ok ()

def sevenSidecar : Sidecar := ⟨1, 9, none, [], "snap-1-9", "77", 1, "x", schemaVersion⟩

def sevenDigest (bytes : List UInt8) : String := if bytes = [7] then "77" else "88"

theorem older_restored :
    ∃ metas : List Committed, metas.Perm (committed "c/".toList twoListed.objects) ∧
      ∃ i m, metas[i]? = some m ∧ 0 < i ∧
        Verified (fun _ => .ok sevenSidecar) sevenDigest ⟨"x", false, 0⟩
          (eightThenSeven i (stemOf m)) sevenSidecar ∧
        Placed (eightThenSeven i (stemOf m)) ⟨some [7], none⟩ ∧
        ∀ j < i, ∀ above ∈ metas[j]?,
          Damaged (fun _ => .ok sevenSidecar) sevenDigest (eightThenSeven j (stemOf above)) := by
  have hlen : (committedStems Sorting.merge twoListed).length = 2 := by
    have htwo : (committed "c/".toList twoListed.objects).length = 2 := by decide +kernel
    rw [committedStems, List.length_map, (committedMetas_perm Sorting.merge twoListed).length_eq,
      htwo]
  have hrun : restoreFromSink (fun _ => .ok sevenSidecar) sevenDigest ⟨"x", false, 0⟩ ⟨"store", "."⟩
      Sorting.merge (fun _ => "") "sink" "c/".toList "latest".toList (.ok twoListed) eightThenSeven
      ⟨none, none⟩ = (⟨some [7], none⟩, .ok sevenSidecar) := by
    obtain ⟨a, b, hstems⟩ := List.length_eq_two.mp hlen
    rw [restoreFromSink, if_neg (not_not.mpr rfl), hstems]
    rfl
  obtain ⟨-, -, h⟩ := restore_latest Sorting.merge (fun _ => .ok sevenSidecar) sevenDigest
    ⟨"x", false, 0⟩ ⟨"store", "."⟩ (fun _ => "") "sink" "c/".toList (.ok twoListed) eightThenSeven
    ⟨none, none⟩ ⟨some [7], none⟩ (.ok sevenSidecar) hrun
  obtain ⟨metas, hperm, -, hok, -⟩ := h twoListed rfl
  obtain ⟨i, m, hm, hverified, hplaced, habove⟩ := hok sevenSidecar rfl
  refine ⟨metas, hperm, i, m, hm, Nat.pos_of_ne_zero ?_, hverified, hplaced, fun j hj x hx =>
    (habove j hj x hx).1⟩
  rintro rfl
  obtain ⟨_, -, -, -, -, -, hsha⟩ := hverified
  exact absurd (show "88" = "77" from hsha) (by decide)

end MemoryGraph.Backup
